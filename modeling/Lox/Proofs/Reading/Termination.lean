import Lox.Proofs.Reading.Recovery

/-
  Reading a program comes to its end.

  Every turn of reading, whether it gives a declaration or an
  error, consumes a token, so that the last turn leaves none.
  A cursor into the tokens that moves with what is consumed
  stays within them: it never gets behind the first token
  that ends the input, and what follows that token does not
  matter.

  Key definitions include:
    * `Token.terminated`
    * `Token.ReadsForward`
    * `Decl.cursor`
    * `Decl.turn`

  Key theorems include:
    * `Token.readsForward`
    * `Decl.exists_isNext_of_suffix`
    * `Decl.exists_consumed_turn`
    * `Decl.Attempted.finish`
    * `Decl.programWithin_progress`
-/

namespace Lox

variable {set : Setting} {limits : Limits}
variable {ts us : List Token}

------------------------------------------------------------
-- Definitions
------------------------------------------------------------

namespace Token

/-
  Tokens as they are read.  If the last one does not end the
  input, one that does is added on its line, which is the
  first line if there is no token.
-/
def terminated
    (ts : List Token) : List Token :=
  match ts.getLast? with
  | none => [endOfInput 1]
  | some t =>
      if t.kind = .endOfInput then ts
      else ts ++ [endOfInput t.line]

/-
  Whether a token is the next one: the first of those that
  are left or, if none is, the one that ends the input.
-/
def IsNext
    (endLine : Int)
    (t : Token) : List Token → Prop
  | [] => t.kind = .endOfInput ∧ t.line = endLine
  | u :: _ => t = u

/-
  Whatever is read off tokens, or skipped, at any level of
  nesting, leaves a final part of them.  A declaration that
  is read, in a block or outside, leaves fewer of them.
-/
structure ReadsForward
    (set : Setting)
    (us : List Token) : Prop where
  expression :
    ∀ level depth groups,
      (Expr.parse set level depth groups us).rest <:+ us
  chain :
    ∀ c left depth groups,
      (Expr.parseChain set c left depth groups us).rest <:+ us
  statement :
    ∀ depth, (Stmt.parse set depth us).rest <:+ us
  declaration :
    ∀ depth, (Decl.parse set depth us).rest <:+ us
  block :
    ∀ depth, (Decl.parseBlock set depth us).rest <:+ us
  skipping :
    ∀ stuck opened, resume stuck opened us <:+ us
  progress :
    ∀ depth d rest,
      Decl.parse set depth us = .done d rest →
        rest.length < us.length

end Token

namespace Decl

/-
  How many tokens are behind, if only these are left of the
  ones before the end.
-/
def cursor
    (ts us : List Token) : Nat :=
  (body ts).length - us.length

/-
  One turn of reading a program: what the attempt gives, and
  the tokens at which the next turn starts.
-/
def turn
    (set : Setting)
    (us : List Token) :
    Except ParseError Decl × List Token :=
  match Decl.parse set set.limits.depthRoom us with
  | .done d rest => (.ok d, rest)
  | .failed f => (.error f.error, f.boundary us)

end Decl

------------------------------------------------------------
-- The Cursor
------------------------------------------------------------

/- Reading goes forward only. -/
theorem Token.readsForward
    (set : Setting)
    (us : List Token) :
    ReadsForward set us where
  expression level depth groups :=
    Expr.rest_parse_suffix set level depth groups us
  chain c left depth groups :=
    (Expr.rest_parse_and_parseChain_suffix set).2
      c left depth groups us
  statement depth := Stmt.rest_parse_suffix set depth us
  declaration depth := Decl.rest_parse_suffix set depth us
  block depth :=
    Decl.rest_parseBlockWith_suffix
      (Decl.rest_parse_suffix set depth) us
  skipping stuck opened := resume_suffix stuck opened us
  progress _ _ _ := Decl.length_lt_of_parse

namespace Decl

/- The tokens end on the line of the one that ends them. -/
theorem endLine_of_ending_eq_cons
    {e : Token} {more : List Token}
    (h : ending ts = e :: more) :
    endLine ts = e.line := by
  unfold endLine
  rw [find?_eq_head?_ending, h]
  rfl

/- Without one, they end on the line of the last token. -/
theorem endLine_of_ending_eq_nil
    {t : Token}
    (h : ending ts = [])
    (hLast : ts.getLast? = some t) :
    endLine ts = t.line := by
  unfold endLine
  rw [find?_eq_head?_ending, h, hLast]
  rfl

/- A token is added only to the end that there is not. -/
theorem exists_terminated_eq_append
    (ts : List Token) :
    ∃ added,
      Token.terminated ts = ts ++ added ∧
        (ending ts = [] →
          added = [Token.endOfInput (endLine ts)]) := by
  unfold Token.terminated
  split
  · rename_i hNone
    rw [List.getLast?_eq_none_iff] at hNone
    exact ⟨[.endOfInput 1], by rw [hNone]; rfl,
      fun _ => by rw [hNone]; rfl⟩
  · rename_i t hLast
    split
    · rename_i hKind
      refine ⟨[], (List.append_nil ts).symm, ?_⟩
      intro hEnding
      have hBody := body_append_ending ts
      rw [hEnding, List.append_nil] at hBody
      have hNot := ne_endOfInput_of_suffix
        (List.suffix_refl (body ts)) t
        (by rw [hBody]; exact List.mem_of_getLast? hLast)
      rw [hKind] at hNot
      cases hNot
    · refine ⟨_, rfl, ?_⟩
      intro hEnding
      rw [endLine_of_ending_eq_nil hEnding hLast]

/-
  The tokens as they are read are those before the end, one
  that ends the input on the right line, and others.
-/
theorem exists_terminated_eq
    (ts : List Token) :
    ∃ e after,
      Token.terminated ts = body ts ++ e :: after ∧
        e.kind = .endOfInput ∧ e.line = endLine ts := by
  rcases exists_terminated_eq_append ts with
    ⟨added, hAdded, hNone⟩
  have hBody := body_append_ending ts
  cases hEnding : ending ts with
  | nil =>
      rw [hEnding, List.append_nil] at hBody
      rw [hAdded, hNone hEnding, hBody]
      exact ⟨.endOfInput (endLine ts), [], rfl, rfl, rfl⟩
  | cons e more =>
      rw [hEnding] at hBody
      refine ⟨e, more ++ added, ?_,
        kind_of_ending_eq_cons hEnding,
        (endLine_of_ending_eq_cons hEnding).symm⟩
      rw [hAdded, ← List.cons_append, ← List.append_assoc,
        hBody]

/- Under the cursor, there is the next token. -/
theorem exists_isNext_of_suffix
    (h : us <:+ body ts) :
    ∃ t,
      (Token.terminated ts)[cursor ts us]? = some t ∧
        t.IsNext (endLine ts) us := by
  rcases exists_terminated_eq ts with
    ⟨e, after, hTerminated, hKind, hLine⟩
  rcases h with ⟨before, hBody⟩
  have hCursor : cursor ts us = before.length := by
    unfold cursor
    rw [← hBody, List.length_append, Nat.add_sub_cancel]
  have hAt :
      (Token.terminated ts)[cursor ts us]? =
        (us ++ e :: after).head? := by
    rw [hTerminated, hCursor, ← hBody, List.append_assoc,
      List.getElem?_append_right (Nat.le_refl _),
      Nat.sub_self, List.head?_eq_getElem?]
  cases us with
  | nil => exact ⟨e, hAt, hKind, hLine⟩
  | cons u us => exact ⟨u, hAt, rfl⟩

------------------------------------------------------------
-- Turns
------------------------------------------------------------

/- A turn at a token consumes at least that token. -/
theorem length_turn_lt
    (set : Setting)
    (h : us ≠ []) :
    (turn set us).2.length < us.length := by
  unfold turn
  cases hParse : Decl.parse set set.limits.depthRoom us with
  | done d rest => exact length_lt_of_parse hParse
  | failed f =>
      cases us with
      | nil => exact absurd rfl h
      | cons t us => exact f.length_boundary_lt hParse

/- A turn leaves a final part of the tokens. -/
theorem turn_suffix
    (set : Setting)
    (us : List Token) :
    (turn set us).2 <:+ us := by
  have hRest := (Token.readsForward set us).declaration
    set.limits.depthRoom
  unfold turn
  cases hParse : Decl.parse set set.limits.depthRoom us with
  | done d rest =>
      rw [hParse] at hRest
      exact hRest
  | failed f =>
      rw [hParse] at hRest
      exact (resume_suffix _ _ f.rest).trans hRest

/- What a turn consumes is not empty. -/
theorem exists_consumed_turn
    (set : Setting)
    (h : us ≠ []) :
    ∃ consumed,
      consumed ≠ [] ∧ us = consumed ++ (turn set us).2 := by
  rcases turn_suffix set us with ⟨consumed, hus⟩
  refine ⟨consumed, ?_, hus.symm⟩
  rintro rfl
  have hLess := length_turn_lt set h
  rw [List.nil_append] at hus
  rw [hus] at hLess
  exact Nat.lt_irrefl _ hLess

/- A program is read turn by turn. -/
theorem parseAll_eq_turn
    (h : us ≠ []) :
    parseAll set us =
      (turn set us).1 :: parseAll set (turn set us).2 := by
  unfold turn
  cases hParse : Decl.parse set set.limits.depthRoom us with
  | done d rest => exact parseAll_of_done hParse
  | failed f =>
      cases us with
      | nil => exact absurd rfl h
      | cons t us => exact parseAll_of_failed hParse

namespace Attempted

variable {items : List (Except ParseError Decl)}

/- A turn is the next attempt. -/
theorem turn
    (h : Attempted set ts items us)
    (hne : us ≠ []) :
    Attempted set ts (items ++ [(turn set us).1])
      (turn set us).2 := by
  unfold Decl.turn
  cases hParse : Decl.parse set set.limits.depthRoom us with
  | done d rest => exact h.done hne hParse
  | failed f => exact h.failed hne hParse

/-
  Attempts go on until no token is left.  The induction is on
  the number of tokens that are left, which falls each turn.
-/
theorem finish
    (h : Attempted set ts items us) :
    Attempted set ts (items ++ parseAll set us) [] := by
  induction hLength : us.length using Nat.strongRecOn
    generalizing items us with
  | ind n ih =>
      by_cases hne : us = []
      · rw [hne, parseAll_nil, List.append_nil, ← hne]
        exact h
      · rw [parseAll_eq_turn hne, ← List.singleton_append,
          ← List.append_assoc]
        exact ih _ (hLength ▸ length_turn_lt set hne)
          (h.turn hne) rfl

/- There are no more results than tokens consumed. -/
theorem length_add_le
    (h : Attempted set ts items us) :
    items.length + us.length ≤ ts.length := by
  induction h with
  | start => simp
  | done before hStart hParse ih =>
      have hLess := length_turn_lt set hStart
      rw [Decl.turn, hParse] at hLess
      dsimp only at hLess
      rw [List.length_append, List.length_singleton]
      omega
  | failed before hStart hParse ih =>
      have hLess := length_turn_lt set hStart
      rw [Decl.turn, hParse] at hLess
      dsimp only at hLess
      rw [List.length_append, List.length_singleton]
      omega

end Attempted

------------------------------------------------------------
-- Programs
------------------------------------------------------------

/- Tokens after one that ends the input do not matter. -/
theorem programWithin_append_endOfInput
    {eof : Token}
    (hKind : eof.kind = .endOfInput)
    (limits : Limits)
    (before after : List Token) :
    programWithin limits (before ++ eof :: after) =
      programWithin limits (before ++ [eof]) := by
  have hBody :
      ∀ vs, body (before ++ eof :: vs) = body before := by
    intro vs
    unfold body
    rw [List.takeWhile_append,
      List.takeWhile_cons_of_neg (by simp [hKind]),
      List.append_nil]
    split
    · rename_i hAll
      exact ((List.takeWhile_prefix _).eq_of_length hAll).symm
    · rfl
  have hLine :
      endLine (before ++ eof :: after) =
        endLine (before ++ [eof]) := by
    unfold endLine
    rw [List.find?_append, List.find?_append,
      List.find?_cons_of_pos (by simp [hKind]),
      List.find?_cons_of_pos (by simp [hKind])]
    cases before.find? fun t => t.kind == .endOfInput with
    | none => rfl
    | some t => rfl
  unfold programWithin
  rw [hLine, hBody, hBody]

/-
  Whatever the tokens and the limits are, a program is read
  in turns until nothing is left before the end, and its
  results are those of the turns.  Each turn consumes tokens,
  so there are no more results than tokens before the end.
  Wherever reading stands, the cursor is at the next token,
  and only moves forward.  What follows the first token that
  ends the input does not matter.
-/
theorem programWithin_progress
    (limits : Limits)
    (ts : List Token) :
    Attempted ⟨limits, endLine ts⟩ (body ts)
        (programWithin limits ts) [] ∧
      (∀ items us,
        Attempted ⟨limits, endLine ts⟩ (body ts) items us →
          us <:+ body ts ∧
            (us ≠ [] →
              Attempted ⟨limits, endLine ts⟩ (body ts)
                  (items ++
                    [(turn ⟨limits, endLine ts⟩ us).1])
                  (turn ⟨limits, endLine ts⟩ us).2 ∧
                ∃ consumed,
                  consumed ≠ [] ∧
                    us = consumed ++
                      (turn ⟨limits, endLine ts⟩ us).2)) ∧
      (programWithin limits ts).length ≤ (body ts).length ∧
      (∀ us, us <:+ body ts →
        (∃ t,
          (Token.terminated ts)[cursor ts us]? = some t ∧
            t.IsNext (endLine ts) us) ∧
          Token.ReadsForward ⟨limits, endLine ts⟩ us) ∧
      ∀ before eof after,
        ts = before ++ eof :: after →
          eof.kind = .endOfInput →
            programWithin limits ts =
              programWithin limits (before ++ [eof]) := by
  have hFinish :
      Attempted ⟨limits, endLine ts⟩ (body ts)
        (programWithin limits ts) [] :=
    Attempted.start.finish
  refine ⟨hFinish, ?_, ?_, ?_, ?_⟩
  · intro items us hAttempted
    exact ⟨hAttempted.suffix, fun hne =>
      ⟨hAttempted.turn hne, exists_consumed_turn _ hne⟩⟩
  · exact hFinish.length_add_le
  · intro us hus
    exact ⟨exists_isNext_of_suffix hus,
      Token.readsForward _ us⟩
  · rintro before eof after rfl hKind
    exact programWithin_append_endOfInput hKind limits before
      after

end Decl

end Lox
