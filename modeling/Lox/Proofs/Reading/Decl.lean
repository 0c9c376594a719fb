import Lox.Proofs.Grammar.Greedy

/-
  Reading statements and declarations follows their grammar.

  A declaration is read off tokens exactly if they are read
  as it before the kind of what comes next, in the sense of
  the greedy grammar.  Canonical tokens are read as their
  declaration before whatever goes on with none.

  Key theorems include:
    * `Stmt.reads_of_parse`
    * `Stmt.Reads.parse`
    * `Decl.parse_append_eq_done`
    * `Decl.derives_of_parse`
    * `Decl.Derives.parse`
-/

namespace Lox

variable {set : Setting} {depth : Nat}
variable {t : Token} {ts us rest : List Token}
variable {more : Kind → Prop}
variable {e : Expr} {s : Stmt} {d : Decl} {ds : List Decl}
variable {α : Type}

------------------------------------------------------------
-- Steps of the Reader
------------------------------------------------------------

namespace Stmt

/- After the word for printing stands an expression. -/
theorem parse_of_printWord
    (h : t.kind = .printWord) :
    parse set (depth + 1) (t :: ts) =
      Expr.parseTerminated set depth .print ts := by
  rw [parse, if_pos h]

/- After an opening brace stands a block. -/
theorem parse_of_leftBrace
    (h : t.kind = .leftBrace) :
    parse set (depth + 1) (t :: ts) =
      (Decl.parseBlock set depth ts).inBlock.andThen
        fun body rest =>
          .done (.block body) (skipSemicolon rest) := by
  rw [parse, if_neg (by simp [h]), if_pos h]
  rfl

/-
  What comes after the branch of a conditional statement: a
  second branch, or the end of the statement.
-/
def parseOther
    (set : Setting)
    (depth : Nat)
    (condition : Expr)
    (body : Stmt) : List Token → Attempt Stmt
  | [] => .done (.ifThen condition body) []
  | t :: after =>
      if t.kind = .elseWord then
        (parse set depth after).andThen
          fun other rest =>
            .done (.ifElse condition body other) rest
      else .done (.ifThen condition body) (t :: after)

/- After the word for conditions stands one, and a branch. -/
theorem parse_of_ifWord
    (h : t.kind = .ifWord) :
    parse set (depth + 1) (t :: ts) =
      (Attempt.expect set .leftParen "(" ts).andThen
        fun _ rest =>
      (Expr.parse set .expression depth
          set.limits.groupRoom rest).andThen
        fun condition rest =>
      (Attempt.expect set .rightParen ")" rest).andThen
        fun _ rest =>
      (parse set depth rest).andThen
        fun body rest =>
          parseOther set depth condition body rest := by
  rw [parse, if_neg (by simp [h]), if_neg (by simp [h]),
    if_pos h]
  rfl

/- Other tokens start an expression. -/
theorem parse_of_expression
    (hPrint : ¬ t.kind = .printWord)
    (hBlock : ¬ t.kind = .leftBrace)
    (hIf : ¬ t.kind = .ifWord) :
    parse set (depth + 1) (t :: ts) =
      Expr.parseTerminated set depth .expression
        (t :: ts) := by
  rw [parse, if_neg hPrint, if_neg hBlock, if_neg hIf]

end Stmt

/- Being in a block does not matter to a success. -/
theorem Attempt.inBlock_eq_done
    {a : Attempt α}
    {x : α} :
    a.inBlock = .done x rest ↔ a = .done x rest := by
  cases a <;> simp [inBlock]

namespace Decl

/- After the word for variables stands a declaration. -/
theorem parse_of_varWord
    (h : t.kind = .varWord) :
    parse set depth (t :: ts) =
      parseVariable set depth ts := by
  rw [parse, parseWith, if_pos h]

/- Other tokens start a statement. -/
theorem parse_of_not_varWord
    (h : ¬ t.kind = .varWord) :
    parse set depth (t :: ts) =
      (Stmt.parse set depth (t :: ts)).andThen
        fun s rest => .done (.statement s) rest := by
  rw [parse, parseWith, if_neg h]

/- Without tokens, a statement is missing. -/
theorem parse_nil :
    parse set depth [] =
      (Stmt.parse set depth []).andThen
        fun s rest => .done (.statement s) rest := by
  rw [parse, parseWith]

/- What holds at the end of a block, and in front of it. -/
theorem parseBlockWith_induction
    {motive : List Token → Prop}
    (nil : motive [])
    (closing :
      ∀ t ts, t.kind = .rightBrace → motive (t :: ts))
    (declaration :
      ∀ t ts, ¬ t.kind = .rightBrace →
        (∀ mid : List Token,
          mid.length < (t :: ts).length → motive mid) →
        motive (t :: ts))
    (ts : List Token) :
    motive ts := by
  induction ts using parseBlockWith.induct with
  | case1 => exact nil
  | case2 t ts hClosing => exact closing t ts hClosing
  | case3 t ts hClosing ih => exact declaration t ts hClosing ih

end Decl

------------------------------------------------------------
-- Semicolons
------------------------------------------------------------

/-
  What is skipped ends something, if what there is does not
  go on with it.
-/
theorem exists_endsBefore_skipSemicolon
    (more : Kind → Prop)
    (h : ∀ t ∈ ts.head?, ¬ more t.kind) :
    ∃ us, ts = us ++ skipSemicolon ts ∧
      EndsBefore more us
        (Token.next (skipSemicolon ts) none) := by
  cases ts with
  | nil => exact ⟨[], rfl, .inr ⟨rfl, fun _ hk => by cases hk⟩⟩
  | cons t ts =>
      by_cases ht : t.kind = .semicolon
      · refine ⟨[t], ?_, .inl ⟨t, rfl, ht⟩⟩
        simp [skipSemicolon, ht]
      · rw [skipSemicolon, if_neg ht]
        refine ⟨[], rfl, .inr ⟨rfl, ?_⟩⟩
        rintro k ⟨⟩
        exact ⟨ht, h t rfl⟩

/- What is skipped after a statement is a semicolon. -/
theorem exists_append_skipSemicolon
    (ts : List Token) :
    ∃ us, ts = us ++ skipSemicolon ts ∧
      (us = [] ∨ IsOne .semicolon us) := by
  rcases exists_endsBefore_skipSemicolon (fun _ => False)
      (fun _ _ h => h) with
    ⟨us, hus, hEnd⟩
  exact ⟨us, hus, hEnd.optional⟩

/- An ending is skipped. -/
theorem EndsBefore.skipSemicolon
    (h : EndsBefore more us (Token.next rest none)) :
    skipSemicolon (us ++ rest) = rest := by
  rcases h with ⟨t, rfl, ht⟩ | ⟨rfl, hAfter⟩
  · exact if_pos ht
  · cases rest with
    | nil => rfl
    | cons t ts => exact if_neg (hAfter t.kind rfl).1

/- The ending of an expression stops it. -/
theorem EndsBefore.stops
    (h :
      EndsBefore (Level.Extends .expression) us
        (Token.next rest none)) :
    Level.Stops .expression (us ++ rest) := by
  rcases h with ⟨t, rfl, ht⟩ | ⟨rfl, hAfter⟩
  · rintro u ⟨⟩ (⟨hEqual, -⟩ | ⟨c, hc, -⟩)
    · rw [ht] at hEqual
      cases hEqual
    · rw [ht] at hc
      cases c <;> cases hc
  · intro t ht
    exact (hAfter t.kind (Token.mem_next.mpr ⟨t, ht, rfl⟩)).2

------------------------------------------------------------
-- Soundness
------------------------------------------------------------

/- A statement that is read as an expression, and its end. -/
theorem Expr.derives_of_parseTerminated
    {make : Expr → α}
    {x : α}
    (h :
      parseTerminated set depth make ts = .done x rest) :
    ∃ e us vs,
      x = make e ∧ ts = us ++ vs ++ rest ∧
        Derives .expression depth set.limits.groupRoom us
          e ∧
        EndsBefore (Level.Extends .expression) vs
          (Token.next rest none) := by
  rw [parseTerminated, Attempt.andThen_eq_done] at h
  rcases h with ⟨e, mid, hExpr, hDone⟩
  cases hDone
  rcases exists_endsBefore_skipSemicolon _
      (stops_of_parse hExpr) with
    ⟨vs, hvs, hEnd⟩
  rcases derives_of_parse hExpr with ⟨us, rfl, hus⟩
  refine ⟨e, us, vs, rfl, ?_, hus, hEnd⟩
  rw [List.append_assoc, ← hvs]

/- A variable is declared by a name, and perhaps a value. -/
theorem Decl.reads_of_parseVariable
    {word : Token}
    (hWord : word.kind = .varWord)
    (h : parseVariable set depth ts = .done d rest) :
    ∃ us, word :: ts = us ++ rest ∧
      Reads set.limits.groupRoom depth us
        (Token.next rest none) d := by
  cases ts with
  | nil => cases h
  | cons name after =>
      unfold parseVariable at h
      dsimp only at h
      split at h
      · rename_i hName
        split at h
        · cases h
          refine ⟨[word, name], rfl,
            .declare hWord hName (.inr ⟨rfl, ?_⟩)⟩
          rintro k ⟨⟩
        · rename_i equals after
          split at h
          · rename_i hEquals
            rcases Expr.derives_of_parseTerminated h with
              ⟨e, us, vs, rfl, rfl, hus, hEnd⟩
            exact ⟨word :: name :: equals :: us ++ vs,
              by simp,
              .declareWith hWord hName hEquals hus hEnd⟩
          · rename_i hEquals
            cases h
            have hNone :
                ∀ t ∈ (equals :: after).head?,
                  ¬ t.kind = .equal := by
              rintro t ⟨⟩
              exact hEquals
            rcases exists_endsBefore_skipSemicolon
                (fun k => k = .equal) hNone with
              ⟨us, hus, hEnd⟩
            refine ⟨word :: name :: us, ?_,
              .declare hWord hName hEnd⟩
            rw [List.cons_append, List.cons_append, ← hus]
      · cases h

/-
  How reading is sound at a number of levels: the tokens
  consumed are read as the statement before what is left.
-/
def Stmt.ReadsSoundly
    (set : Setting)
    (depth : Nat) : Prop :=
  ∀ ts s rest,
    parse set depth ts = .done s rest →
      ∃ us, ts = us ++ rest ∧
        Reads set.limits.groupRoom depth us
          (Token.next rest none) s

/- A declaration is sound if the statements are. -/
theorem Stmt.ReadsSoundly.decl
    (h : ReadsSoundly set depth)
    (hParse : Decl.parse set depth ts = .done d rest) :
    ∃ us, ts = us ++ rest ∧
      Decl.Reads set.limits.groupRoom depth us
        (Token.next rest none) d := by
  have hStatement :
      (parse set depth ts).andThen
          (fun s rest => .done (Decl.statement s) rest) =
        .done d rest →
      ∃ us, ts = us ++ rest ∧
        Decl.Reads set.limits.groupRoom depth us
          (Token.next rest none) d := by
    intro hDone
    rw [Attempt.andThen_eq_done] at hDone
    rcases hDone with ⟨s, mid, hs, hDone⟩
    cases hDone
    rcases h ts s rest hs with ⟨us, rfl, hus⟩
    exact ⟨us, rfl, .statement hus⟩
  cases ts with
  | nil =>
      rw [Decl.parse_nil] at hParse
      exact hStatement hParse
  | cons t ts =>
      by_cases hWord : t.kind = .varWord
      · rw [Decl.parse_of_varWord hWord] at hParse
        exact Decl.reads_of_parseVariable hWord hParse
      · rw [Decl.parse_of_not_varWord hWord] at hParse
        exact hStatement hParse

/- A block is read declaration by declaration. -/
theorem Stmt.ReadsSoundly.parseBlock
    (h : ReadsSoundly set depth)
    (hParse : Decl.parseBlock set depth ts = .done ds rest) :
    ∃ us closing, ts = us ++ closing :: rest ∧
      closing.kind = .rightBrace ∧
      Decl.ReadsAll set.limits.groupRoom depth us
        (some .rightBrace) ds := by
  unfold Decl.parseBlock at hParse
  induction ts using Decl.parseBlockWith_induction
      generalizing ds with
  | nil =>
      rw [Decl.parseBlockWith] at hParse
      cases hParse
  | closing closing after hClosing =>
      rw [Decl.parseBlockWith, if_pos hClosing] at hParse
      cases hParse
      exact ⟨[], closing, rfl, hClosing, .nil⟩
  | declaration t after hClosing ih =>
      rw [Decl.parseBlockWith, if_neg hClosing,
        Attempt.andThen_eq_done] at hParse
      rcases hParse with ⟨d, mid, hd, hRest⟩
      rcases h.decl hd with ⟨us, hts, hus⟩
      -- a declaration takes a token, so the block goes on
      have hLess : mid.length < (t :: after).length := by
        rcases hus.derives.eq_cons with ⟨u, vs, rfl, -⟩
        simp only [hts, List.length_append, List.length_cons]
        omega
      rw [dif_pos hLess, Attempt.andThen_eq_done] at hRest
      rcases hRest with ⟨more, last, hMore, hDone⟩
      cases hDone
      rcases ih mid hLess hMore with
        ⟨vs, closing, rfl, hClosing, hvs⟩
      refine ⟨us ++ vs, closing, by simp [hts], hClosing,
        .cons ?_ hvs⟩
      rwa [Token.next_append, Token.next_cons, hClosing]
        at hus

/-
  After a condition and a branch, what follows decides
  between the two forms.
-/
theorem Stmt.ReadsSoundly.parseOther
    (h : ReadsSoundly set depth)
    {vs mid : List Token}
    {word opening closing : Token}
    {condition : Expr}
    {body : Stmt}
    (hWord : word.kind = .ifWord)
    (hOpening : opening.kind = .leftParen)
    (hus :
      Expr.Derives .expression depth set.limits.groupRoom us
        condition)
    (hClosing : closing.kind = .rightParen)
    (hvs :
      Reads set.limits.groupRoom depth vs
        (Token.next mid none) body)
    (hParse :
      parseOther set depth condition body mid =
        .done s rest) :
    ∃ ws,
      word :: opening :: us ++ closing :: vs ++ mid =
          ws ++ rest ∧
        Reads set.limits.groupRoom (depth + 1) ws
          (Token.next rest none) s := by
  cases mid with
  | nil =>
      cases hParse
      exact ⟨_, rfl,
        .ifThen hWord hOpening hus hClosing hvs nofun⟩
  | cons separator after =>
      rw [Stmt.parseOther] at hParse
      split at hParse
      · rename_i hElse
        rw [Attempt.andThen_eq_done] at hParse
        rcases hParse with ⟨other, last, hSecond, hDone⟩
        cases hDone
        rcases h _ _ _ hSecond with ⟨ws, rfl, hws⟩
        rw [Token.next_cons, hElse] at hvs
        refine ⟨_, ?_,
          .ifElse hWord hOpening hus hClosing hvs hElse hws⟩
        simp
      · rename_i hElse
        cases hParse
        exact ⟨_, rfl,
          .ifThen hWord hOpening hus hClosing hvs
            fun hKind => hElse (Option.some.inj hKind)⟩

/- A conditional is sound if its branches are. -/
theorem Stmt.ReadsSoundly.ifWord
    (h : ReadsSoundly set depth)
    (hIf : t.kind = .ifWord)
    (hParse :
      parse set (depth + 1) (t :: ts) = .done s rest) :
    ∃ us, t :: ts = us ++ rest ∧
      Reads set.limits.groupRoom (depth + 1) us
        (Token.next rest none) s := by
  rw [parse_of_ifWord hIf, Attempt.andThen_eq_done] at hParse
  rcases hParse with ⟨opening, mid, hExpect, hParse⟩
  rcases Attempt.expect_eq_done.mp hExpect with
    ⟨rfl, hOpening⟩
  rw [Attempt.andThen_eq_done] at hParse
  rcases hParse with ⟨condition, mid, hTest, hParse⟩
  rcases Expr.derives_of_parse hTest with ⟨us, rfl, hus⟩
  rw [Attempt.andThen_eq_done] at hParse
  rcases hParse with ⟨closing, mid, hExpect, hParse⟩
  rcases Attempt.expect_eq_done.mp hExpect with
    ⟨rfl, hClosing⟩
  rw [Attempt.andThen_eq_done] at hParse
  rcases hParse with ⟨body, mid, hFirst, hParse⟩
  rcases h _ _ _ hFirst with ⟨vs, rfl, hvs⟩
  have hOther := h.parseOther hIf hOpening hus hClosing hvs
    hParse
  simpa using hOther

/- Statements are read soundly at every number of levels. -/
theorem Stmt.readsSoundly
    (set : Setting)
    (depth : Nat) :
    ReadsSoundly set depth := by
  induction depth with
  | zero =>
      intro ts s rest h
      rw [parse] at h
      cases h
  | succ depth ih =>
      intro ts s rest h
      cases ts with
      | nil =>
          rw [parse] at h
          rcases Expr.derives_of_parseTerminated h with
            ⟨e, us, vs, rfl, hts, hus, hEnd⟩
          exact ⟨us ++ vs, hts, .expression hus hEnd⟩
      | cons t ts =>
          by_cases hPrint : t.kind = .printWord
          · rw [parse_of_printWord hPrint] at h
            rcases Expr.derives_of_parseTerminated h with
              ⟨e, us, vs, rfl, rfl, hus, hEnd⟩
            exact ⟨t :: us ++ vs, by simp,
              .print hPrint hus hEnd⟩
          by_cases hBlock : t.kind = .leftBrace
          · rw [parse_of_leftBrace hBlock,
              Attempt.andThen_eq_done] at h
            rcases h with ⟨ds, mid, hds, hDone⟩
            cases hDone
            rw [Attempt.inBlock_eq_done] at hds
            rcases ih.parseBlock hds with
              ⟨us, closing, rfl, hClosing, hus⟩
            rcases exists_endsBefore_skipSemicolon
                (fun _ => False) (fun _ _ h => h) with
              ⟨vs, hvs, hEnd⟩
            refine ⟨t :: us ++ closing :: vs, ?_,
              .block hBlock hus hClosing hEnd⟩
            rw [List.append_assoc, List.cons_append,
              List.cons_append, ← hvs]
          by_cases hIf : t.kind = .ifWord
          · exact ih.ifWord hIf h
          rw [parse_of_expression hPrint hBlock hIf] at h
          rcases Expr.derives_of_parseTerminated h with
            ⟨e, us, vs, rfl, hts, hus, hEnd⟩
          exact ⟨us ++ vs, hts, .expression hus hEnd⟩

/- A declaration is read off the tokens it consumes. -/
theorem Decl.reads_of_parse
    (h : parse set depth ts = .done d rest) :
    ∃ us, ts = us ++ rest ∧
      Reads set.limits.groupRoom depth us
        (Token.next rest none) d :=
  (Stmt.readsSoundly set depth).decl h

/- A declaration is derived from the tokens it consumes. -/
theorem Decl.derives_of_parse
    (h : parse set depth ts = .done d rest) :
    ∃ us, ts = us ++ rest ∧
      Derives .optional set.limits.groupRoom depth us d := by
  rcases reads_of_parse h with ⟨us, hts, hus⟩
  exact ⟨us, hts, hus.derives⟩

------------------------------------------------------------
-- Completeness
------------------------------------------------------------

/- An expression with its ending is read as such. -/
theorem Expr.Derives.parseTerminated
    (h :
      Derives .expression depth set.limits.groupRoom ts e)
    (hEnd :
      EndsBefore (Level.Extends .expression) us
        (Token.next rest none))
    (make : Expr → α) :
    parseTerminated set depth make (ts ++ us ++ rest) =
      .done (make e) rest := by
  rw [Expr.parseTerminated, List.append_assoc,
    h.parse set hEnd.stops, Attempt.andThen_done,
    hEnd.skipSemicolon]

/- How reading statements is complete. -/
def Stmt.ReadsCompletely
    (set : Setting)
    (depth : Nat) : Prop :=
  ∀ ts s rest,
    Reads set.limits.groupRoom depth ts
        (Token.next rest none) s →
      parse set depth (ts ++ rest) = .done s rest

/- A name that no value follows declares a variable. -/
theorem Decl.parseVariable_of_endsBefore
    {name : Token}
    (hName : name.kind = .identifier)
    (hEnd :
      EndsBefore (fun k => k = .equal) us
        (Token.next rest none)) :
    parseVariable set depth (name :: us ++ rest) =
      .done (.declare name none) rest := by
  have hSkip := hEnd.skipSemicolon
  have hNone :
      ∀ t ∈ (us ++ rest).head?, ¬ t.kind = .equal := by
    rcases hEnd with ⟨u, rfl, hu⟩ | ⟨rfl, hAfter⟩
    · rintro t ⟨⟩
      simp [hu]
    · intro t ht
      exact
        (hAfter t.kind (Token.mem_next.mpr ⟨t, ht, rfl⟩)).2
  rw [List.cons_append]
  cases hRest : us ++ rest with
  | nil =>
      rw [hRest] at hSkip
      simp only [parseVariable, hName, if_true, ← hSkip]
      rfl
  | cons t after =>
      rw [hRest] at hNone hSkip
      simp only [parseVariable, hName, if_true,
        if_neg (hNone t rfl), hSkip]

/- A declaration is complete if statements are. -/
theorem Stmt.ReadsCompletely.decl
    (h : ReadsCompletely set depth)
    (hd :
      Decl.Reads set.limits.groupRoom depth ts
        (Token.next rest none) d) :
    Decl.parse set depth (ts ++ rest) = .done d rest := by
  cases hd with
  | declare hWord hName hEnd =>
      rw [List.cons_append, Decl.parse_of_varWord hWord]
      exact Decl.parseVariable_of_endsBefore hName hEnd
  | @declareWith _ _ _ _ _ word name equals hWord hName
      hEquals inner hEnd =>
      have hValue := inner.parseTerminated hEnd
        fun e => Decl.declare name (some e)
      rw [List.cons_append, List.cons_append,
        List.cons_append, List.cons_append,
        Decl.parse_of_varWord hWord]
      simp only [List.cons_append, Decl.parseVariable, hName,
        hEquals, if_true]
      exact hValue
  | statement inner =>
      have hStmt := h _ _ _ inner
      rcases inner.derives.eq_cons with ⟨t, us, rfl, ht⟩
      have hVar : ¬ t.kind = .varWord := by
        intro hKind
        rw [hKind] at ht
        cases ht
      rw [List.cons_append] at hStmt ⊢
      rw [Decl.parse_of_not_varWord hVar, hStmt,
        Attempt.andThen_done]

/- A block is complete if statements are. -/
theorem Stmt.ReadsCompletely.parseBlock
    (h : ReadsCompletely set depth)
    {closing : Token}
    (hds :
      Decl.ReadsAll set.limits.groupRoom depth ts
        (some .rightBrace) ds)
    (hClosing : closing.kind = .rightBrace) :
    Decl.parseBlock set depth (ts ++ closing :: rest) =
      .done ds rest := by
  induction ds generalizing ts with
  | nil =>
      cases hds
      rw [List.nil_append, Decl.parseBlock,
        Decl.parseBlockWith, if_pos hClosing]
  | cons d ds ih =>
      cases hds with
      | @cons _ us vs _ _ _ first more =>
          have hNext :
              Token.next (vs ++ closing :: rest) none =
                Token.next vs (some .rightBrace) := by
            rw [Token.next_append, Token.next_cons, hClosing]
          rw [← hNext] at first
          have hFirst := h.decl first
          have hMore := ih more
          rcases first.derives.eq_cons with ⟨t, us, rfl, ht⟩
          have hOpen : ¬ t.kind = .rightBrace := by
            intro hKind
            rw [hKind] at ht
            cases ht
          rw [Decl.parseBlock] at hMore ⊢
          simp only [List.append_assoc, List.cons_append]
            at hFirst ⊢
          rw [Decl.parseBlockWith, if_neg hOpen, hFirst,
            Attempt.andThen_done, dif_pos, hMore,
            Attempt.andThen_done]
          simp only [List.length_append, List.length_cons]
          omega

/-
  A condition and a branch are read completely if statements
  are; what follows decides between the two forms.
-/
theorem Stmt.ReadsCompletely.parse_ifWord
    (h : ReadsCompletely set depth)
    {vs : List Token}
    {word opening closing : Token}
    {condition : Expr}
    {body : Stmt}
    (hWord : word.kind = .ifWord)
    (hOpening : opening.kind = .leftParen)
    (hus :
      Expr.Derives .expression depth set.limits.groupRoom us
        condition)
    (hClosing : closing.kind = .rightParen)
    (hvs :
      Reads set.limits.groupRoom depth vs
        (Token.next rest none) body) :
    parse set (depth + 1)
        (word :: opening :: us ++ closing :: vs ++ rest) =
      parseOther set depth condition body rest := by
  have hStops :
      Level.Stops .expression (closing :: (vs ++ rest)) :=
    Expr.stops_of_rightParen hClosing
  have hTest := hus.parse set hStops
  have hBody := h vs body rest hvs
  simp only [List.cons_append, List.append_assoc]
  rw [parse_of_ifWord hWord,
    Attempt.expect_eq_done.mpr ⟨rfl, hOpening⟩,
    Attempt.andThen_done, hTest, Attempt.andThen_done,
    Attempt.expect_eq_done.mpr ⟨rfl, hClosing⟩,
    Attempt.andThen_done, hBody, Attempt.andThen_done]

/- Statements are read completely at every depth. -/
theorem Stmt.readsCompletely
    (set : Setting)
    (depth : Nat) :
    ReadsCompletely set depth := by
  induction depth with
  | zero =>
      intro ts s rest h
      cases h
  | succ depth ih =>
      intro ts s rest h
      cases h with
      | expression inner hEnd =>
          have hExpr := inner.parseTerminated hEnd
            Stmt.expression
          rcases inner.eq_cons with ⟨t, us, rfl, ht⟩
          have hKind :
              ∀ k : Kind, k.startsExpr = false →
                ¬ t.kind = k := by
            intro k hk hKind
            rw [hKind, hk] at ht
            cases ht
          exact (parse_of_expression (hKind _ rfl)
            (hKind _ rfl) (hKind _ rfl)).trans hExpr
      | print hWord inner hEnd =>
          rw [List.cons_append, List.cons_append,
            parse_of_printWord hWord,
            inner.parseTerminated hEnd]
      | block hOpening body hClosing hEnd =>
          rw [List.append_assoc, List.cons_append,
            parse_of_leftBrace hOpening, List.cons_append,
            ih.parseBlock body hClosing]
          simp only [Attempt.inBlock, Attempt.andThen_done]
          rw [hEnd.skipSemicolon]
      | ifThen hWord hOpening test hClosing first hAfter =>
          rw [ih.parse_ifWord hWord hOpening test hClosing
            first]
          cases rest with
          | nil => rfl
          | cons t ts =>
              have hElse : ¬ t.kind = .elseWord :=
                fun hKind => hAfter (congrArg some hKind)
              rw [parseOther, if_neg hElse]
      | @ifElse _ _ us vs _ _ body other _ _ _ separator hWord
          hOpening test hClosing first hSeparator second =>
          have hBody :
              Reads set.limits.groupRoom depth us
                (Token.next (separator :: vs ++ rest) none)
                body := by
            rw [List.cons_append, Token.next_cons, hSeparator]
            exact first
          have hSecond := ih vs other rest second
          rw [List.append_assoc,
            ih.parse_ifWord hWord hOpening test hClosing
              hBody, List.cons_append, parseOther,
            if_pos hSeparator, hSecond, Attempt.andThen_done]

------------------------------------------------------------
-- Reading
------------------------------------------------------------

/- Tokens are parsed as the statement they are read as. -/
theorem Stmt.parse_append_eq_done :
    parse set depth (us ++ rest) = .done s rest ↔
      Reads set.limits.groupRoom depth us
        (Token.next rest none) s := by
  constructor
  · intro h
    rcases readsSoundly set depth _ _ _ h with
      ⟨vs, hts, hvs⟩
    rwa [List.append_cancel_right hts]
  · exact readsCompletely set depth us s rest

/- So are they as the declaration they are read as. -/
theorem Decl.parse_append_eq_done :
    parse set depth (us ++ rest) = .done d rest ↔
      Reads set.limits.groupRoom depth us
        (Token.next rest none) d := by
  constructor
  · intro h
    rcases reads_of_parse h with ⟨vs, hts, hvs⟩
    rwa [List.append_cancel_right hts]
  · exact (Stmt.readsCompletely set depth).decl

/- The tokens of a block are parsed likewise. -/
theorem Decl.ReadsAll.parseBlock
    {closing : Token}
    (h :
      ReadsAll set.limits.groupRoom depth us
        (some .rightBrace) ds)
    (hClosing : closing.kind = .rightBrace) :
    parseBlock set depth (us ++ closing :: rest) =
      .done ds rest :=
  (Stmt.readsCompletely set depth).parseBlock h hClosing

/-
  A statement that is read before some tokens is read before
  others of which the first is of the same kind.
-/
theorem Stmt.parse_append_of_next
    {rest' : List Token}
    (h : parse set depth (us ++ rest) = .done s rest)
    (hNext : Token.next rest' none = Token.next rest none) :
    parse set depth (us ++ rest') = .done s rest' := by
  rw [parse_append_eq_done] at h ⊢
  rwa [hNext]

/- So is a declaration. -/
theorem Decl.parse_append_of_next
    {rest' : List Token}
    (h : parse set depth (us ++ rest) = .done d rest)
    (hNext : Token.next rest' none = Token.next rest none) :
    parse set depth (us ++ rest') = .done d rest' := by
  rw [parse_append_eq_done] at h ⊢
  rwa [hNext]

------------------------------------------------------------
-- Canonical Tokens
------------------------------------------------------------

/-
  Tokens that do not go on with a statement: no semicolon
  that could end it, and no `else` where it is open.
-/
def Stmt.Stops
    (s : Stmt)
    (ts : List Token) : Prop :=
  ∀ t ∈ ts.head?,
    ¬ t.kind = .semicolon ∧
      (s.endsOpen = true → ¬ t.kind = .elseWord)

/- Tokens that do not go on with any declaration. -/
def Decl.Stops
    (ts : List Token) : Prop :=
  ∀ t ∈ ts.head?,
    ¬ t.kind = .semicolon ∧ ¬ t.kind = .elseWord

/- The start of a declaration goes on with nothing. -/
theorem Decl.stops_of_startsDecl
    (h : t.kind.startsDecl = true) :
    Stops (t :: ts) := by
  rintro u ⟨⟩
  constructor
  · intro hKind
    rw [hKind] at h
    cases h
  · intro hKind
    rw [hKind] at h
    cases h

/- The end of a block goes on with nothing. -/
theorem Decl.stops_of_rightBrace
    (h : t.kind = .rightBrace) :
    Stops (t :: ts) := by
  rintro u ⟨⟩
  simp [h]

/- Declarations before something that stops them stop. -/
theorem Decl.DerivesAll.stops
    {endings : Endings}
    {groups : Nat}
    {ds : List Decl}
    (h : Decl.DerivesAll endings groups depth ts ds)
    (hRest : Decl.Stops rest) :
    Decl.Stops (ts ++ rest) := by
  cases h with
  | nil => exact hRest
  | cons first more =>
      rcases first.eq_cons with ⟨t, us, rfl, ht⟩
      exact Decl.stops_of_startsDecl ht

/- A canonical declaration is read if statements are. -/
theorem Decl.Derives.reads_of
    {groups : Nat}
    (hReads :
      ∀ ts s rest,
        Stmt.Derives .canonical groups depth ts s →
          s.Stops rest →
          Stmt.Reads groups depth ts (Token.next rest none) s)
    (h : Decl.Derives .canonical groups depth ts d)
    (hRest : Decl.Stops rest) :
    Decl.Reads groups depth ts (Token.next rest none) d := by
  cases h with
  | declare hWord hName hEnd =>
      exact .declare hWord hName (.inl hEnd)
  | declareWith hWord hName hEquals inner hEnd =>
      exact .declareWith hWord hName hEquals inner (.inl hEnd)
  | statement inner =>
      exact .statement (hReads _ _ rest inner fun t ht =>
        ⟨(hRest t ht).1, fun _ => (hRest t ht).2⟩)

/- Canonical declarations are read if each of them is. -/
theorem Decl.DerivesAll.reads_of
    {groups : Nat}
    (hReads :
      ∀ ts d rest,
        Decl.Derives .canonical groups depth ts d →
          Decl.Stops rest →
          Decl.Reads groups depth ts (Token.next rest none) d)
    (h : Decl.DerivesAll .canonical groups depth ts ds)
    (hRest : Decl.Stops rest) :
    Decl.ReadsAll groups depth ts
      (Token.next rest none) ds := by
  induction ds generalizing ts with
  | nil =>
      cases h
      exact .nil
  | cons d ds ih =>
      cases h with
      | cons first more =>
          refine .cons ?_ (ih more)
          rw [← Token.next_append]
          exact hReads _ _ _ first (more.stops hRest)

/- A canonical statement is read where it stops. -/
theorem Stmt.Derives.reads
    {groups : Nat}
    (h : Stmt.Derives .canonical groups depth ts s)
    (hRest : s.Stops rest) :
    Stmt.Reads groups depth ts (Token.next rest none) s := by
  induction depth generalizing ts s rest with
  | zero => cases h
  | succ depth ih =>
      cases h with
      | expression inner hEnd =>
          exact .expression inner (.inl hEnd)
      | print hWord inner hEnd =>
          exact .print hWord inner (.inl hEnd)
      | @block _ _ _ _ _ closing hOpening body hClosing
          hEnd =>
          cases hEnd
          have hStops : Decl.Stops [closing] :=
            Decl.stops_of_rightBrace hClosing
          have hBody := body.reads_of
            (fun _ _ _ hd hStops => hd.reads_of
              (fun _ _ _ hs hStops => ih hs hStops) hStops)
            hStops
          rw [Token.next_cons, hClosing] at hBody
          refine .block hOpening hBody hClosing
            (.inr ⟨rfl, fun k hk => ?_⟩)
          rcases Token.mem_next.mp hk with ⟨t, ht, rfl⟩
          exact ⟨(hRest t ht).1, fun h => h⟩
      | ifThen hWord hOpening test hClosing first =>
          refine .ifThen hWord hOpening test hClosing
            (ih first fun t ht =>
              ⟨(hRest t ht).1, fun _ => (hRest t ht).2 rfl⟩)
            ?_
          intro hElse
          rcases Token.mem_next.mp hElse with ⟨t, ht, hKind⟩
          exact (hRest t ht).2 rfl hKind
      | @ifElse _ _ _ _ _ body _ _ _ _ separator hWord
          hOpening test hClosing first hClosed hSeparator
          second =>
          have hStops : body.Stops [separator] := by
            rintro t ⟨⟩
            simp [hSeparator, hClosed]
          have hFirst := ih first hStops
          rw [Token.next_cons, hSeparator] at hFirst
          exact .ifElse hWord hOpening test hClosing hFirst
            hSeparator (ih second hRest)

/- A canonical declaration is read as itself. -/
theorem Decl.Derives.parse
    (h :
      Decl.Derives .canonical set.limits.groupRoom depth ts
        d)
    (hRest : Decl.Stops rest) :
    Decl.parse set depth (ts ++ rest) = .done d rest :=
  Decl.parse_append_eq_done.mpr
    (h.reads_of (fun _ _ _ hs hStops => hs.reads hStops)
      hRest)

end Lox
