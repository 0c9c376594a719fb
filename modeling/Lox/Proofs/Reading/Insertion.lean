import Lox.Proofs.Reading.Braces

/-
  Putting tokens into an empty block.

  Let a declaration be read off tokens that hold an empty
  block, and let the declaration reach beyond that block.
  With other tokens in the block, none of whose braces match
  braces outside, the attempt ends at the same point, or it
  fails within the block.

  Key definitions include:
    * `Token.Encloses`
    * `Attempt.Contained`

  Key theorems include:
    * `Stmt.contained_parse`
    * `Decl.contained_parse`
-/

namespace Lox

variable {set : Setting} {depth groups : Nat}
variable {t opening closing : Token}
variable {inner ts us vs rest mid after : List Token}
variable {n : Nat}
variable {e : Expr} {s : Stmt} {d : Decl} {ds : List Decl}
variable {α β : Type}

------------------------------------------------------------
-- Blocks
------------------------------------------------------------

namespace Token

/- Braces that match each other, around some tokens. -/
structure Encloses
    (opening : Token)
    (inner : List Token)
    (closing : Token) : Prop where
  hOpening : opening.kind = .leftBrace
  hInner : Nests 0 inner 0
  hClosing : closing.kind = .rightBrace

/-
  Tokens that close nothing from outside do not reach beyond
  a brace that closes something outside of other tokens.
-/
theorem Nests.append_of_closing
    (h : Nests 0 inner 0)
    (hClosing : closing.kind = .rightBrace)
    (hus : Nests 0 us n)
    (hSplit : inner ++ closing :: rest = us ++ vs) :
    ∃ ws, inner = us ++ ws ∧ vs = ws ++ closing :: rest := by
  rcases List.append_eq_append_iff.mp hSplit with
    ⟨ws, rfl, hvs⟩ | ⟨ws, hInner, hvs⟩
  · cases ws with
    | nil => exact ⟨[], by simp, hvs.symm⟩
    | cons w ws =>
        -- here the brace would be one of the first tokens
        rw [List.cons_append, List.cons.injEq] at hvs
        rcases hvs with ⟨rfl, -⟩
        rcases hus.split with ⟨k, hk, hMore⟩
        rcases hMore.of_rightBrace hClosing with ⟨l, hl, -⟩
        have := hk.unique h
        omega
  · exact ⟨ws, hInner, hvs⟩

/- The brace that closes a block is the only one to do so. -/
theorem Nests.eq_of_closing
    {last : Token}
    (h : Nests 0 inner 0)
    (hClosing : closing.kind = .rightBrace)
    (hus : Nests 0 us 0)
    (hLast : last.kind = .rightBrace)
    (hSplit : inner ++ closing :: rest = us ++ last :: vs) :
    inner = us ∧ rest = vs := by
  rcases h.append_of_closing hClosing hus hSplit with
    ⟨ws, rfl, hvs⟩
  cases ws with
  | nil =>
      cases hvs
      exact ⟨List.append_nil us, rfl⟩
  | cons w ws =>
      rw [List.cons_append, List.cons.injEq] at hvs
      rcases hvs with ⟨rfl, -⟩
      rcases h.split with ⟨k, hk, hMore⟩
      rcases hMore.of_rightBrace hLast with ⟨l, hl, -⟩
      have := hk.unique hus
      omega

end Token

/-
  A final part of tokens with two marked ones holds both of
  them, or the second one, or neither.
-/
theorem suffix_append_cons_cons
    {α : Type}
    {x y : α}
    {us rest mid : List α}
    (h : mid <:+ us ++ x :: y :: rest) :
    (∃ vs ws, us = vs ++ ws ∧ mid = ws ++ x :: y :: rest) ∨
      mid = y :: rest ∨ mid <:+ rest := by
  have hMarked : x :: y :: rest <:+ us ++ x :: y :: rest :=
    ⟨us, rfl⟩
  rcases List.suffix_or_suffix_of_suffix h hMarked with
    hMid | ⟨ws, rfl⟩
  · rcases List.suffix_cons_iff.mp hMid with rfl | hMid
    · exact .inl ⟨us, [], by simp, rfl⟩
    · exact .inr (List.suffix_cons_iff.mp hMid)
  · rcases h with ⟨vs, hvs⟩
    rw [← List.append_assoc] at hvs
    exact .inl
      ⟨vs, ws, (List.append_cancel_right hvs).symm, rfl⟩

/- No tokens are left that were already consumed. -/
theorem not_append_cons_cons_suffix
    {α : Type}
    {x y : α}
    {us rest : List α} :
    ¬ us ++ x :: y :: rest <:+ rest := by
  intro h
  have := h.length_le
  rw [List.length_append, List.length_cons,
    List.length_cons] at this
  omega

------------------------------------------------------------
-- Contained Attempts
------------------------------------------------------------

namespace Attempt

/-
  Whether an attempt leaves certain tokens, or fails among
  those inside of a block, or where its end comes.
-/
def Contained
    (inner ending after : List Token) : Attempt α → Prop
  | done _ rest => rest = after
  | failed f =>
      ∃ us vs, inner = us ++ vs ∧ f.rest = vs ++ ending

variable {ending : List Token} {a : Attempt α}

/- Going on in the same way where the attempts succeed. -/
theorem Contained.andThen
    {next : α → List Token → Attempt β}
    (h : a.Contained inner ending mid)
    (hNext :
      ∀ x, (next x mid).Contained inner ending after) :
    (a.andThen next).Contained inner ending after := by
  cases a with
  | failed f => exact h
  | done x rest =>
      cases h
      exact hNext x

/- Blocks around do not matter. -/
theorem Contained.inBlock
    (h : a.Contained inner ending after) :
    a.inBlock.Contained inner ending after := by
  cases a with
  | failed f => exact h
  | done x rest => exact h

end Attempt

open Attempt

/-
  A block ends at its own end, or breaks off before.
-/
theorem Decl.contained_parseBlock_inner
    (hBlock : Token.Encloses opening inner closing) :
    (parseBlock set depth (inner ++ closing :: rest)).Contained
      inner (closing :: rest) rest := by
  have hNests :=
    nests_of_parseBlock (accounts_parse set depth)
      (inner ++ closing :: rest)
  cases hParse :
      parseBlock set depth (inner ++ closing :: rest) with
  | done ds mid =>
      rcases hNests.1 ds mid hParse with
        ⟨us, last, hSplit, hLast, hus⟩
      exact (hBlock.hInner.eq_of_closing hBlock.hClosing hus
        hLast hSplit).2.symm
  | failed f =>
      rcases hNests.2 f hParse with ⟨us, hSplit, hus⟩
      rcases hBlock.hInner.append_of_closing hBlock.hClosing
          hus hSplit with
        ⟨ws, hws, hRest⟩
      exact ⟨us, ws, hws, hRest⟩

------------------------------------------------------------
-- Expressions
------------------------------------------------------------

/- Tokens without braces come before any brace. -/
theorem Token.append_of_braceless
    (hOpening : opening.kind = .leftBrace)
    (h : ∀ t ∈ us, ¬ t.kind = .leftBrace)
    (hSplit : ts ++ opening :: rest = us ++ mid) :
    ∃ ws, ts = us ++ ws ∧ mid = ws ++ opening :: rest := by
  rcases List.append_eq_append_iff.mp hSplit with
    ⟨ws, rfl, hmid⟩ | ⟨ws, hts, hmid⟩
  · cases ws with
    | nil => exact ⟨[], by simp, hmid.symm⟩
    | cons w ws =>
        rw [List.cons_append, List.cons.injEq] at hmid
        rcases hmid with ⟨rfl, -⟩
        exact absurd hOpening (h _ (by simp))
  · exact ⟨ws, hts, hmid⟩

/- What comes first decides where an expression stops. -/
theorem Level.Stops.of_append_cons
    {level : Level}
    {rest' : List Token}
    (h : level.Stops (us ++ t :: rest)) :
    level.Stops (us ++ t :: rest') := by
  cases us with
  | nil => exact h
  | cons u us => exact h

/-
  An expression ends before a brace, and does not depend on
  what comes after the brace.
-/
theorem Expr.parse_before_leftBrace
    (hOpening : opening.kind = .leftBrace)
    (h :
      parse set .expression depth groups
        (us ++ opening :: rest) = .done e mid) :
    ∃ vs ws,
      us = vs ++ ws ∧ mid = ws ++ opening :: rest ∧
        ∀ rest',
          parse set .expression depth groups
              (us ++ opening :: rest') =
            .done e (ws ++ opening :: rest') := by
  have hStops := stops_of_parse h
  rcases derives_of_parse h with ⟨vs, hSplit, hvs⟩
  rcases Token.append_of_braceless hOpening
      (fun t ht => (hvs.braceless t ht).1) hSplit with
    ⟨ws, rfl, rfl⟩
  refine ⟨vs, ws, rfl, rfl, fun rest' => ?_⟩
  rw [List.append_assoc]
  exact hvs.parse set hStops.of_append_cons

/- An expected token is found before a brace. -/
theorem Attempt.expect_before_leftBrace
    {kind : Kind}
    {expected : String}
    (hOpening : opening.kind = .leftBrace)
    (hKind : ¬ kind = .leftBrace)
    (h :
      expect set kind expected (us ++ opening :: rest) =
        .done t mid) :
    ∃ vs, us = t :: vs ∧ mid = vs ++ opening :: rest ∧
      t.kind = kind := by
  rcases expect_eq_done.mp h with ⟨hSplit, ht⟩
  cases us with
  | nil =>
      cases hSplit
      exact absurd (ht.symm.trans hOpening) hKind
  | cons u us =>
      cases hSplit
      exact ⟨us, rfl, rfl, ht⟩

/- Only a semicolon is skipped. -/
theorem exists_skipSemicolon_append_cons
    (h : ¬ t.kind = .semicolon)
    (us rest : List Token) :
    ∃ vs, skipSemicolon (us ++ t :: rest) =
      vs ++ t :: rest := by
  cases us with
  | nil => exact ⟨[], if_neg h⟩
  | cons u us =>
      rw [List.cons_append, skipSemicolon]
      split
      · exact ⟨us, rfl⟩
      · exact ⟨u :: us, rfl⟩

/- Simple statements end before a brace. -/
theorem Expr.exists_append_of_parseTerminated
    {make : Expr → α}
    {x : α}
    (hOpening : opening.kind = .leftBrace)
    (h :
      parseTerminated set depth make
        (us ++ opening :: rest) = .done x mid) :
    ∃ ws, mid = ws ++ opening :: rest := by
  rcases derives_of_parseTerminated h with
    ⟨e, vs, ws, -, hSplit, hvs, hEnd⟩
  have hBraceless :
      ∀ t ∈ vs ++ ws, ¬ t.kind = .leftBrace := by
    rw [List.forall_mem_append]
    refine ⟨fun t ht => (hvs.braceless t ht).1, ?_⟩
    rcases hEnd.optional with rfl | ⟨t, rfl, ht⟩
    · simp
    · simp [ht]
  rcases Token.append_of_braceless hOpening hBraceless
      hSplit with
    ⟨as, -, hmid⟩
  exact ⟨as, hmid⟩

/- Variables end before a brace. -/
theorem Decl.exists_append_of_parseVariable
    (hOpening : opening.kind = .leftBrace)
    (h :
      parseVariable set depth (us ++ opening :: rest) =
        .done d mid) :
    ∃ ws, mid = ws ++ opening :: rest := by
  cases us with
  | nil => simp [parseVariable, hOpening, Attempt.fail] at h
  | cons name us =>
      unfold parseVariable at h
      rw [List.cons_append] at h
      dsimp only at h
      split at h
      · cases us with
        | nil =>
            rw [List.nil_append] at h
            simp only [hOpening, reduceCtorEq, if_false,
              skipSemicolon, done.injEq] at h
            exact ⟨[], h.2.symm⟩
        | cons equals us =>
            rw [List.cons_append] at h
            dsimp only at h
            split at h
            · exact Expr.exists_append_of_parseTerminated
                hOpening h
            · cases h
              exact exists_skipSemicolon_append_cons
                (by simp [hOpening]) (equals :: us) rest
      · cases h

------------------------------------------------------------
-- Statements
------------------------------------------------------------

/- No success ends between the two braces of a block. -/
theorem Attempt.Accounts.not_done_closing
    {x : α}
    (hOpening : opening.kind = .leftBrace) :
    ¬ Accounts (us ++ opening :: rest) (done x rest) := by
  intro h
  rcases h.of_done with ⟨ws, hSplit, hws⟩
  rw [List.append_cons] at hSplit
  rw [← List.append_cancel_right hSplit] at hws
  rcases hws.split with ⟨k, -, hOne⟩
  have := hOne.unique (.leftBrace hOpening)
  omega

/-
  A success that reaches the end of a block reaches beyond
  that end.  Otherwise it ends in front of the block.
-/
theorem Attempt.Accounts.rest_cases
    {x : α}
    (hOpening : opening.kind = .leftBrace)
    (h :
      Accounts (us ++ opening :: closing :: rest)
        (done x mid)) :
    (∃ vs ws,
      us = vs ++ ws ∧ mid = ws ++ opening :: closing :: rest) ∨
      mid <:+ rest := by
  rcases h.of_done with ⟨ts, hSplit, -⟩
  have hSuffix : mid <:+ us ++ opening :: closing :: rest :=
    ⟨ts, hSplit.symm⟩
  rcases suffix_append_cons_cons hSuffix with
    hBefore | rfl | hBeyond
  · exact .inl hBefore
  · exact absurd h (not_done_closing hOpening)
  · exact .inr hBeyond

/- What is next does not depend on what a block holds. -/
theorem Token.next_append_cons
    (us rest rest' : List Token)
    (t : Token) :
    next (us ++ t :: rest') none =
      next (us ++ t :: rest) none := by
  cases us <;> rfl

/-
  How statements are contained at a number of levels: they
  leave the same tokens or break off within the block.
-/
def Stmt.IsContained
    (set : Setting)
    (depth : Nat)
    (opening : Token)
    (inner : List Token)
    (closing : Token) : Prop :=
  ∀ us rest s after,
    parse set depth (us ++ opening :: closing :: rest) =
        .done s after →
      after <:+ rest →
      (parse set depth
          (us ++ opening :: (inner ++ closing :: rest))).Contained
        inner (closing :: rest) after

namespace Stmt.IsContained

/- A declaration is contained if statements are. -/
theorem decl
    (h : IsContained set depth opening inner closing)
    (hBlock : Token.Encloses opening inner closing)
    (hParse :
      Decl.parse set depth
          (us ++ opening :: closing :: rest) =
        .done d after)
    (hAfter : after <:+ rest) :
    (Decl.parse set depth
        (us ++ opening :: (inner ++ closing :: rest))).Contained
      inner (closing :: rest) after := by
  have hStatement :
      (Stmt.parse set depth
            (us ++ opening :: closing :: rest)).andThen
          (fun s rest => .done (Decl.statement s) rest) =
        .done d after →
      ((Stmt.parse set depth
            (us ++ opening ::
              (inner ++ closing :: rest))).andThen
          fun s rest =>
            .done (Decl.statement s) rest).Contained
        inner (closing :: rest) after := by
    intro hDone
    rw [Attempt.andThen_eq_done] at hDone
    rcases hDone with ⟨s, mid, hs, hDone⟩
    cases hDone
    exact (h us rest s after hs hAfter).andThen fun s => rfl
  cases us with
  | nil =>
      have hVar : ¬ opening.kind = .varWord := by
        simp [hBlock.hOpening]
      rw [List.nil_append,
        Decl.parse_of_not_varWord hVar] at hParse ⊢
      exact hStatement hParse
  | cons u us =>
      rw [List.cons_append] at hParse ⊢
      by_cases hVar : u.kind = .varWord
      · rw [Decl.parse_of_varWord hVar] at hParse
        rcases Decl.exists_append_of_parseVariable
            hBlock.hOpening hParse with
          ⟨ws, rfl⟩
        exact absurd hAfter not_append_cons_cons_suffix
      · rw [Decl.parse_of_not_varWord hVar] at hParse ⊢
        exact hStatement hParse

/-
  The rest of a block around is contained.  The induction is
  on what is left to be read of it: declarations in front of
  the inner block are read as before, the one that holds it
  is contained, and those beyond are not touched.
-/
theorem parseBlock
    (h : IsContained set depth opening inner closing)
    (hBlock : Token.Encloses opening inner closing)
    (hParse :
      Decl.parseBlock set depth
          (us ++ opening :: closing :: rest) =
        .done ds after)
    (hAfter : after <:+ rest) :
    (Decl.parseBlock set depth
        (us ++ opening :: (inner ++ closing :: rest))).Contained
      inner (closing :: rest) after := by
  generalize hts :
    us ++ opening :: closing :: rest = ts at hParse
  induction ts using Decl.parseBlock_induction set depth
      generalizing us ds with
  | nil => simp at hts
  | closing t ts hClosing =>
      rw [Decl.parseBlock_of_rightBrace hClosing] at hParse
      cases hParse
      cases us with
      | nil =>
          cases hts
          rw [hBlock.hOpening] at hClosing
          cases hClosing
      | cons u us =>
          cases hts
          exact absurd hAfter not_append_cons_cons_suffix
  | declaration t ts hClosing ih =>
      rw [Decl.parseBlock_of_not_rightBrace hClosing,
        Attempt.andThen_eq_done] at hParse
      rcases hParse with ⟨d, mid, hd, hMore⟩
      have hFirst :
          Decl.parseBlock set depth
              (us ++ opening ::
                (inner ++ closing :: rest)) =
            (Decl.parse set depth
                (us ++ opening ::
                  (inner ++ closing :: rest))).andThen
              fun d mid =>
            (Decl.parseBlock set depth mid).andThen
              fun ds rest => .done (d :: ds) rest := by
        cases us with
        | nil =>
            cases hts
            exact Decl.parseBlock_of_not_rightBrace hClosing
        | cons u us =>
            cases hts
            exact Decl.parseBlock_of_not_rightBrace hClosing
      rw [hFirst]
      have hAccounts := Decl.accounts_parse set depth (t :: ts)
      rw [hd, ← hts] at hAccounts
      rcases hAccounts.rest_cases hBlock.hOpening with
        ⟨vs, ws, rfl, rfl⟩ | hBeyond
      · -- the inner block comes after this declaration
        have hRest := @ih d _ hd
        rw [← hts, List.append_assoc] at hd
        have hSame := Decl.parse_append_of_next hd
          (Token.next_append_cons ws (closing :: rest)
            (inner ++ closing :: rest) opening)
        rw [List.append_assoc, hSame, Attempt.andThen_done]
        rw [Attempt.andThen_eq_done] at hMore
        rcases hMore with ⟨es, last, hes, hDone⟩
        cases hDone
        exact (hRest rfl hes).andThen fun ds => rfl
      · rw [← hts] at hd
        apply (h.decl hBlock hd hBeyond).andThen
        intro d
        rw [Attempt.andThen_eq_done] at hMore
        rcases hMore with ⟨es, last, hes, hDone⟩
        cases hDone
        rw [hes]
        rfl

/- A block around, with its own end, is contained. -/
theorem leftBrace
    (h : IsContained set depth opening inner closing)
    (hBlock : Token.Encloses opening inner closing)
    (ht : t.kind = .leftBrace)
    (hParse :
      parse set (depth + 1)
          (t :: (us ++ opening :: closing :: rest)) =
        .done s after)
    (hAfter : after <:+ rest) :
    (parse set (depth + 1)
        (t :: (us ++
          opening :: (inner ++ closing :: rest)))).Contained
      inner (closing :: rest) after := by
  rw [parse_of_leftBrace ht] at hParse ⊢
  rw [Attempt.andThen_eq_done] at hParse
  rcases hParse with ⟨ds, mid, hds, hDone⟩
  cases hDone
  rw [Attempt.inBlock_eq_done] at hds
  have hAccounts :=
    Decl.nests_of_parseBlock (Decl.accounts_parse set depth)
      (us ++ opening :: closing :: rest)
  rcases hAccounts.1 ds mid hds with
    ⟨vs, last, hSplit, hLast, hvs⟩
  have hMid : mid <:+ us ++ opening :: closing :: rest :=
    ⟨vs ++ [last], by simp [hSplit]⟩
  -- the semicolon that may come last is not the inner end
  have hBeyond : mid <:+ rest := by
    rcases suffix_append_cons_cons hMid with
      ⟨ws, xs, rfl, rfl⟩ | rfl | hBeyond
    · have hSemicolon : ¬ opening.kind = .semicolon := by
        simp [hBlock.hOpening]
      rcases exists_skipSemicolon_append_cons hSemicolon xs
          (closing :: rest) with
        ⟨as, has⟩
      rw [has] at hAfter
      exact absurd hAfter not_append_cons_cons_suffix
    · simp only [skipSemicolon, hBlock.hClosing, reduceCtorEq,
        if_false] at hAfter
      have := hAfter.length_le
      rw [List.length_cons] at this
      omega
    · exact hBeyond
  exact (h.parseBlock hBlock hds hBeyond).inBlock.andThen
    fun ds => rfl

/-
  What follows a condition is contained: the block is in the
  first branch, or in the second one.
-/
theorem branches
    (h : IsContained set depth opening inner closing)
    (hBlock : Token.Encloses opening inner closing)
    {condition : Expr}
    (hParse :
      ((parse set depth
            (us ++ opening :: closing :: rest)).andThen
          fun body rest =>
            parseOther set depth condition body rest) =
        .done s after)
    (hAfter : after <:+ rest) :
    ((parse set depth
          (us ++ opening ::
            (inner ++ closing :: rest))).andThen
        fun body rest =>
          parseOther set depth condition body rest).Contained
      inner (closing :: rest) after := by
  rw [Attempt.andThen_eq_done] at hParse
  rcases hParse with ⟨body, mid, hFirst, hParse⟩
  have hAccounts := accounts_parse set depth
    (us ++ opening :: closing :: rest)
  rw [hFirst] at hAccounts
  rcases hAccounts.rest_cases hBlock.hOpening with
    ⟨vs, ws, rfl, rfl⟩ | hBeyond
  · rw [List.append_assoc] at hFirst
    have hSame := parse_append_of_next hFirst
      (Token.next_append_cons ws (closing :: rest)
        (inner ++ closing :: rest) opening)
    rw [List.append_assoc, hSame, Attempt.andThen_done]
    cases ws with
    | nil =>
        have hElse : ¬ opening.kind = .elseWord := by
          simp [hBlock.hOpening]
        rw [List.nil_append, parseOther,
          if_neg hElse] at hParse
        cases hParse
        rw [← List.nil_append (opening :: _)] at hAfter
        exact absurd hAfter not_append_cons_cons_suffix
    | cons separator ws =>
        rw [List.cons_append, parseOther] at hParse ⊢
        split at hParse
        · rename_i hElse
          rw [if_pos hElse]
          rw [Attempt.andThen_eq_done] at hParse
          rcases hParse with ⟨other, last, hSecond, hDone⟩
          cases hDone
          exact (h ws rest other after hSecond
            hAfter).andThen fun other => rfl
        · cases hParse
          rw [← List.cons_append] at hAfter
          exact absurd hAfter not_append_cons_cons_suffix
  · apply (h us rest body mid hFirst hBeyond).andThen
    intro body
    cases mid with
    | nil =>
        cases hParse
        rfl
    | cons separator mid =>
        rw [parseOther] at hParse ⊢
        split at hParse
        · rename_i hElse
          rw [if_pos hElse]
          rw [Attempt.andThen_eq_done] at hParse
          rcases hParse with ⟨other, last, hSecond, hDone⟩
          cases hDone
          rw [hSecond]
          rfl
        · rename_i hElse
          cases hParse
          rw [if_neg hElse]
          rfl

/- A conditional is contained if its branches are. -/
theorem ifWord
    (h : IsContained set depth opening inner closing)
    (hBlock : Token.Encloses opening inner closing)
    (ht : t.kind = .ifWord)
    (hParse :
      parse set (depth + 1)
          (t :: (us ++ opening :: closing :: rest)) =
        .done s after)
    (hAfter : after <:+ rest) :
    (parse set (depth + 1)
        (t :: (us ++
          opening :: (inner ++ closing :: rest)))).Contained
      inner (closing :: rest) after := by
  rw [parse_of_ifWord ht] at hParse ⊢
  rw [Attempt.andThen_eq_done] at hParse
  rcases hParse with ⟨left, mid, hExpect, hParse⟩
  rcases Attempt.expect_before_leftBrace hBlock.hOpening
      (by simp) hExpect with
    ⟨us, rfl, rfl, hLeft⟩
  rw [List.cons_append,
    Attempt.expect_eq_done.mpr ⟨rfl, hLeft⟩,
    Attempt.andThen_done]
  rw [Attempt.andThen_eq_done] at hParse
  rcases hParse with ⟨condition, mid, hTest, hParse⟩
  rcases Expr.parse_before_leftBrace hBlock.hOpening hTest
    with ⟨vs, us, rfl, rfl, hSame⟩
  rw [hSame, Attempt.andThen_done]
  rw [Attempt.andThen_eq_done] at hParse
  rcases hParse with ⟨right, mid, hExpect, hParse⟩
  rcases Attempt.expect_before_leftBrace hBlock.hOpening
      (by simp) hExpect with
    ⟨us, rfl, rfl, hRight⟩
  rw [List.cons_append,
    Attempt.expect_eq_done.mpr ⟨rfl, hRight⟩,
    Attempt.andThen_done]
  exact h.branches hBlock hParse hAfter

end Stmt.IsContained

/- The inner block itself, with what comes after it. -/
theorem Stmt.contained_parse_inner
    (hBlock : Token.Encloses opening inner closing)
    (hParse :
      parse set (depth + 1) (opening :: closing :: rest) =
        .done s after) :
    (parse set (depth + 1)
        (opening :: (inner ++ closing :: rest))).Contained
      inner (closing :: rest) after := by
  rw [parse_of_leftBrace hBlock.hOpening] at hParse ⊢
  rw [Decl.parseBlock_of_rightBrace hBlock.hClosing] at hParse
  cases hParse
  exact (Decl.contained_parseBlock_inner
    hBlock).inBlock.andThen fun ds => rfl

/-
  Statements are contained.  The induction is on the levels;
  a statement starts with the block, or it is a block or a
  conditional that holds it, as others hold no braces.
-/
theorem Stmt.contained_parse
    (hBlock : Token.Encloses opening inner closing)
    (set : Setting)
    (depth : Nat) :
    IsContained set depth opening inner closing := by
  induction depth with
  | zero =>
      intro us rest s after hParse
      rw [parse] at hParse
      cases hParse
  | succ depth ih =>
      intro us rest s after hParse hAfter
      cases us with
      | nil => exact contained_parse_inner hBlock hParse
      | cons u us =>
          rw [List.cons_append] at hParse ⊢
          by_cases hOther : u.kind = .leftBrace
          · exact ih.leftBrace hBlock hOther hParse hAfter
          by_cases hIf : u.kind = .ifWord
          · exact ih.ifWord hBlock hIf hParse hAfter
          -- simple statements end in front of the block
          exfalso
          by_cases hPrint : u.kind = .printWord
          · rw [parse_of_printWord hPrint] at hParse
            rcases Expr.exists_append_of_parseTerminated
                hBlock.hOpening hParse with
              ⟨ws, rfl⟩
            exact not_append_cons_cons_suffix hAfter
          · rw [parse_of_expression hPrint hOther hIf,
              ← List.cons_append] at hParse
            rcases Expr.exists_append_of_parseTerminated
                hBlock.hOpening hParse with
              ⟨ws, rfl⟩
            exact not_append_cons_cons_suffix hAfter

/- Declarations are contained. -/
theorem Decl.contained_parse
    (hBlock : Token.Encloses opening inner closing)
    (hParse :
      parse set depth (us ++ opening :: closing :: rest) =
        .done d after)
    (hAfter : after <:+ rest) :
    (parse set depth
        (us ++ opening :: (inner ++ closing :: rest))).Contained
      inner (closing :: rest) after :=
  (Stmt.contained_parse hBlock set depth).decl hBlock hParse
    hAfter

end Lox
