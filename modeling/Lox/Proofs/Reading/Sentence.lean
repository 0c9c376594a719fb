import Lox.Proofs.Grammar.Sentence
import Lox.Proofs.Reading.Recovery

/-
  Reading accepts the documented grammar.

  With room enough for their number, tokens are read without
  an error exactly if their kinds form a sentence of the
  documented grammar.  The greedy reader does not get stuck
  on a text that could be divided in another way: where an
  expression goes on with a minus or an `else` goes to a
  nearer statement, the longer part is a sentence as well.

  Key theorems include:
    * `Expr.Sentence.exists_derives`
    * `Stmt.acceptsUpTo`
    * `Decl.errorsOf_programWithin_eq_nil`
-/

namespace Lox

variable {set : Setting} {limits : Limits}
variable {groups depth : Nat}
variable {level : Level} {c : Chain}
variable {ts us vs : List Token}
variable {after : Option Kind}
variable {ks ls : List Kind} {k : Kind}
variable {e : Expr} {s : Stmt} {d : Decl} {ds : List Decl}

------------------------------------------------------------
-- Expressions
------------------------------------------------------------

/- A chain joins fewer operators than there are tokens. -/
theorem Expr.Derives.links_lt_length
    (h : Derives level depth groups ts e)
    (c : Chain) :
    e.links c < ts.length := by
  induction h with
  | expression inner ih => exact ih
  | assign hName hEquals inner ih =>
      simp only [links, List.length_cons]
      omega
  | plain inner ih => exact ih
  | operand inner ih => exact ih
  | link first hOp hDepth second ihFirst ihSecond =>
      rw [Chain.links_join, List.length_append,
        List.length_cons]
      split <;> omega
  | unary hOp inner ih =>
      simp only [links, List.length_cons]
      omega
  | primary inner ih => exact ih
  | literal hLiteral => exact Nat.zero_lt_one
  | identifier hName => exact Nat.zero_lt_one
  | grouping hOpening inner hClosing ih =>
      simp only [links, List.length_append, List.length_cons]
      omega

/- How many levels an expression takes besides its tokens. -/
def Level.surplus : Level → Nat
  | .expression => 1
  | _ => 0

/- Operands take no further levels. -/
theorem Chain.surplus_operand
    (c : Chain) :
    c.operand.surplus = 0 := by
  cases c <;> rfl

/-
  Tokens with the kinds of an expression derive one, if there
  are as many levels and parentheses as tokens, and a level
  to start with.
-/
theorem Expr.Sentence.exists_derives
    (h : Sentence level ks)
    (hts : ts.map Token.kind = ks)
    (hDepth : ts.length + level.surplus ≤ depth)
    (hGroups : ts.length ≤ groups) :
    ∃ e, Derives level depth groups ts e := by
  induction h generalizing ts depth groups with
  | expression inner ih =>
      cases depth with
      | zero => cases hDepth
      | succ depth =>
          have hRoom :
              ts.length + Level.assignment.surplus ≤ depth :=
            Nat.le_of_succ_le_succ hDepth
          rcases ih hts hRoom hGroups with ⟨e, he⟩
          exact ⟨e, .expression he⟩
  | assign inner ih =>
      rcases List.map_eq_cons_iff.mp hts with
        ⟨name, us, rfl, hName, hus⟩
      rcases List.map_eq_cons_iff.mp hus with
        ⟨equals, vs, rfl, hEquals, hvs⟩
      simp only [Level.surplus, List.length_cons]
        at hDepth hGroups
      cases depth with
      | zero => omega
      | succ depth =>
          have hRoom :
              vs.length + Level.assignment.surplus ≤
                depth := by
            simp only [Level.surplus]
            omega
          have hOther : vs.length ≤ groups := by omega
          rcases ih hvs hRoom hOther with ⟨e, he⟩
          exact ⟨_, .assign hName hEquals he⟩
  | plain inner ih =>
      rcases ih hts hDepth hGroups with ⟨e, he⟩
      exact ⟨e, .plain he⟩
  | @operand ks c inner ih =>
      have hRoom : ts.length + c.operand.surplus ≤ depth := by
        rwa [Chain.surplus_operand]
      rcases ih hts hRoom hGroups with ⟨e, he⟩
      exact ⟨e, .operand he⟩
  | @link _ _ c _ first hOp second ihFirst ihSecond =>
      rcases List.map_eq_append_iff.mp hts with
        ⟨us, vs, rfl, hus, hvs⟩
      rcases List.map_eq_cons_iff.mp hvs with
        ⟨op, ws, rfl, rfl, hws⟩
      simp only [Level.surplus, List.length_append,
        List.length_cons] at hDepth hGroups
      have hLeft :
          us.length + (Level.chain c).surplus ≤ depth := by
        simp only [Level.surplus]
        omega
      have hFirst : us.length ≤ groups := by omega
      have hSecond : ws.length ≤ groups := by omega
      rcases ihFirst hus hLeft hFirst with ⟨left, hl⟩
      -- each operator before takes a level from the operand
      have hLinks := hl.links_lt_length c
      have hRight :
          ws.length + c.operand.surplus ≤
            depth - left.links c - 1 := by
        rw [Chain.surplus_operand]
        omega
      rcases ihSecond hws hRight hSecond with ⟨right, hr⟩
      exact ⟨_, .link hl hOp (by omega) hr⟩
  | unary hOp inner ih =>
      rcases List.map_eq_cons_iff.mp hts with
        ⟨op, us, rfl, rfl, hus⟩
      simp only [Level.surplus, List.length_cons]
        at hDepth hGroups
      cases depth with
      | zero => omega
      | succ depth =>
          have hRoom :
              us.length + Level.unary.surplus ≤ depth := by
            simp only [Level.surplus]
            omega
          have hOther : us.length ≤ groups := by omega
          rcases ih hus hRoom hOther with ⟨e, he⟩
          exact ⟨_, .unary hOp he⟩
  | primary inner ih =>
      rcases ih hts hDepth hGroups with ⟨e, he⟩
      exact ⟨e, .primary he⟩
  | literal hLiteral =>
      rcases List.map_eq_singleton_iff.mp hts with
        ⟨t, rfl, rfl⟩
      exact ⟨_, .literal hLiteral⟩
  | identifier =>
      rcases List.map_eq_singleton_iff.mp hts with
        ⟨t, rfl, ht⟩
      exact ⟨_, .identifier ht⟩
  | grouping inner ih =>
      rcases List.map_eq_append_iff.mp hts with
        ⟨us, vs, rfl, hus, hvs⟩
      rcases List.map_eq_cons_iff.mp hus with
        ⟨opening, us, rfl, hOpening, hus⟩
      rcases List.map_eq_singleton_iff.mp hvs with
        ⟨closing, rfl, hClosing⟩
      simp only [Level.surplus, List.length_append,
        List.length_cons, List.length_nil] at hDepth hGroups
      have hRoom :
          us.length + Level.expression.surplus ≤ depth := by
        simp only [Level.surplus]
        omega
      cases groups with
      | zero => omega
      | succ groups =>
          have hInner : us.length ≤ groups := by omega
          rcases ih hus hRoom hInner with ⟨e, he⟩
          exact ⟨_, .grouping hOpening he hClosing⟩

------------------------------------------------------------
-- Endings
------------------------------------------------------------

/- At the end of the input, an ending is what it looks like. -/
theorem EndsBefore.of_maySemicolon
    {more : Kind → Prop}
    (h : MaySemicolon (us.map Token.kind)) :
    EndsBefore more us none := by
  rcases h with h | h
  · exact .inr ⟨List.map_eq_nil_iff.mp h, nofun⟩
  · rcases List.map_eq_singleton_iff.mp h with ⟨t, rfl, ht⟩
    exact .inl ⟨t, rfl, ht⟩

/- The last token is of the last kind. -/
theorem IsLast.of_getLast?_map
    (h : (ts.map Token.kind).getLast? = some k) :
    IsLast k ts := by
  rw [List.getLast?_map, Option.map_eq_some_iff] at h
  exact h

/- A minus is the only kind that starts and goes on. -/
theorem Kind.not_extends_of_startsDecl
    (h : k.startsDecl = true)
    (hMinus : ¬ k = .minus) :
    ¬ Level.Extends .expression k := by
  have hAll :
      ∀ k ∈ all, k.startsDecl = true → ¬ k = .minus →
        ¬ k = .equal ∧ ¬ k.isInfixOperator = true := by
    decide
  have hOther := hAll k (mem_all k) h hMinus
  rintro (⟨hEqual, -⟩ | ⟨c, hc, -⟩)
  · exact hOther.1 hEqual
  · exact hOther.2 (isInfixOperator_of_holds hc)

/- Declarations that are closed end before others. -/
theorem EndedBefore.of_endsClosed
    (h :
      ∀ k ∈ after, k = .rightBrace ∨ k.startsDecl = true)
    (hApart :
      after = some .minus → EndsClosed (ts.map Token.kind)) :
    EndedBefore ts after := by
  intro k hk
  have hSemicolon : ¬ k = .semicolon := by
    rintro rfl
    rcases h _ hk with hKind | hKind
    · cases hKind
    · cases hKind
  by_cases hMinus : k = .minus
  · subst hMinus
    rcases hApart hk with hLast | hLast
    · exact .inl (.of_getLast?_map hLast)
    · exact .inr ⟨hSemicolon, .inl (.of_getLast?_map hLast)⟩
  · refine .inr ⟨hSemicolon, .inr ?_⟩
    rcases h k hk with rfl | hStarts
    · rintro (⟨hEqual, -⟩ | ⟨c, hc, -⟩)
      · cases hEqual
      · cases c <;> cases hc
    · exact Kind.not_extends_of_startsDecl hStarts hMinus

------------------------------------------------------------
-- Statements and Declarations
------------------------------------------------------------

/-
  How sentences of at most some length are read, with enough
  room: as a statement, before the end of the input.
-/
def Stmt.AcceptsUpTo
    (groups depth n : Nat) : Prop :=
  ∀ ts : List Token,
    ts.length ≤ n →
      Stmt.Sentence (ts.map Token.kind) →
        ∃ s, Stmt.Reads groups depth ts none s

namespace Stmt.AcceptsUpTo

variable {n : Nat}

/- A declaration is read if statements are. -/
theorem decl
    (h : AcceptsUpTo groups depth n)
    (hts : ts.length ≤ n)
    (hDepth : ts.length ≤ depth)
    (hGroups : ts.length ≤ groups)
    (hSentence : Decl.Sentence (ts.map Token.kind)) :
    ∃ d, Decl.Reads groups depth ts none d := by
  generalize hks : ts.map Token.kind = ks at hSentence
  cases hSentence with
  | declare hEnd =>
      rcases List.map_eq_cons_iff.mp hks with
        ⟨word, us, rfl, hWord, hus⟩
      rcases List.map_eq_cons_iff.mp hus with
        ⟨name, vs, rfl, hName, rfl⟩
      exact ⟨_, .declare hWord hName (.of_maySemicolon hEnd)⟩
  | declareWith inner hEnd =>
      rcases List.map_eq_append_iff.mp hks with
        ⟨us, vs, rfl, hus, rfl⟩
      rcases List.map_eq_cons_iff.mp hus with
        ⟨word, us, rfl, hWord, hus⟩
      rcases List.map_eq_cons_iff.mp hus with
        ⟨name, us, rfl, hName, hus⟩
      rcases List.map_eq_cons_iff.mp hus with
        ⟨equals, us, rfl, hEquals, hus⟩
      simp only [List.length_append, List.length_cons]
        at hDepth hGroups
      have hRoom :
          us.length + Level.expression.surplus ≤ depth := by
        simp only [Level.surplus]
        omega
      have hInner : us.length ≤ groups := by omega
      rcases inner.exists_derives hus hRoom hInner with
        ⟨e, he⟩
      exact ⟨_, .declareWith hWord hName hEquals he
        (.of_maySemicolon hEnd)⟩
  | statement inner =>
      subst hks
      rcases h ts hts inner with ⟨s, hs⟩
      exact ⟨_, .statement hs⟩

/-
  A declaration is read before another one, or before the end
  of a block, if it does not go on into it.
-/
theorem decl_before
    (h : AcceptsUpTo groups depth n)
    (hts : ts.length ≤ n)
    (hDepth : ts.length ≤ depth)
    (hGroups : ts.length ≤ groups)
    (hSentence : Decl.Sentence (ts.map Token.kind))
    (hAfter :
      ∀ k ∈ after, k = .rightBrace ∨ k.startsDecl = true)
    (hApart :
      after = some .minus →
        Decl.IsClosed (ts.map Token.kind)) :
    ∃ d, Decl.Reads groups depth ts after d := by
  rcases h.decl hts hDepth hGroups hSentence with ⟨d, hd⟩
  have hElse : ¬ after = some .elseWord := by
    rintro rfl
    rcases hAfter _ rfl with hKind | hKind
    · cases hKind
    · cases hKind
  by_cases hEnds :
      after = some .minus → EndsClosed (ts.map Token.kind)
  · exact ⟨d, hd.before (.of_endsClosed hAfter hEnds) hElse⟩
  -- a variable without a value does not go on with a minus
  · rcases Classical.not_imp.mp hEnds with ⟨rfl, hOpen⟩
    have hValue := (hApart rfl).resolve_left hOpen
    rcases List.map_eq_cons_iff.mp hValue with
      ⟨word, us, rfl, hWord, hus⟩
    rcases List.map_eq_singleton_iff.mp hus with
      ⟨name, rfl, hName⟩
    refine ⟨_, .declare hWord hName (.inr ⟨rfl, ?_⟩)⟩
    rintro k ⟨⟩
    exact ⟨by simp, by simp⟩

/- Declarations are read if they are separated. -/
theorem readsAll
    (h : AcceptsUpTo groups depth n)
    (hts : ts.length ≤ n)
    (hDepth : ts.length ≤ depth)
    (hGroups : ts.length ≤ groups)
    (hSeparated : Decl.Separated (ts.map Token.kind))
    (hAfter : ∀ k ∈ after, k = .rightBrace) :
    ∃ ds, Decl.ReadsAll groups depth ts after ds := by
  generalize hks : ts.map Token.kind = ks at hSeparated
  induction hSeparated generalizing ts with
  | nil =>
      rw [List.map_eq_nil_iff.mp hks]
      exact ⟨[], .nil⟩
  | cons first more hApart ih =>
      rcases List.map_eq_append_iff.mp hks with
        ⟨us, vs, rfl, rfl, rfl⟩
      rw [List.length_append] at hts hDepth hGroups
      rcases ih (by omega) (by omega) (by omega) rfl with
        ⟨ds, hds⟩
      have hNext :
          ∀ k ∈ Token.next vs after,
            k = .rightBrace ∨ k.startsDecl = true := by
        intro k hk
        cases vs with
        | nil => exact .inl (hAfter k hk)
        | cons t vs => exact .inr (more.startsDecl hk)
      have hMinus :
          Token.next vs after = some .minus →
            Decl.IsClosed (us.map Token.kind) := by
        intro hk
        cases vs with
        | nil => cases hAfter _ hk
        | cons t vs => exact hApart hk
      rcases h.decl_before (by omega) (by omega) (by omega)
          first hNext hMinus with
        ⟨d, hd⟩
      exact ⟨d :: ds, .cons hd hds⟩

end Stmt.AcceptsUpTo

/- The tokens of a condition, and those after it. -/
theorem Token.exists_condition
    (h :
      ts.map kind =
        .ifWord :: .leftParen :: ks ++ .rightParen :: ls) :
    ∃ word left us right vs,
      ts = word :: left :: us ++ right :: vs ∧
        word.kind = .ifWord ∧ left.kind = .leftParen ∧
        us.map kind = ks ∧ right.kind = .rightParen ∧
        vs.map kind = ls := by
  rcases List.map_eq_append_iff.mp h with
    ⟨xs, ys, rfl, hxs, hys⟩
  rcases List.map_eq_cons_iff.mp hxs with
    ⟨word, xs, rfl, hWord, hxs⟩
  rcases List.map_eq_cons_iff.mp hxs with
    ⟨left, us, rfl, hLeft, hus⟩
  rcases List.map_eq_cons_iff.mp hys with
    ⟨right, vs, rfl, hRight, hvs⟩
  exact ⟨word, left, us, right, vs, rfl, hWord, hLeft, hus,
    hRight, hvs⟩

/-
  A sentence is read as a statement.  The induction is on the
  length.  If the first branch of a conditional ends open,
  the second one belongs to a statement within the first.
-/
theorem Stmt.acceptsUpTo
    (n : Nat)
    (hDepth : n + 2 ≤ depth)
    (hGroups : n ≤ groups) :
    AcceptsUpTo groups depth n := by
  induction n generalizing depth with
  | zero =>
      intro ts hts hSentence
      rw [List.eq_nil_of_length_eq_zero
        (Nat.le_zero.mp hts)] at hSentence
      rcases hSentence.eq_cons with ⟨k, ls, hks, -⟩
      cases hks
  | succ n ih =>
      intro ts hts hSentence
      cases depth with
      | zero => omega
      | succ depth =>
      have hLess : AcceptsUpTo groups depth n :=
        ih (by omega) (by omega)
      have hExpr :
          ∀ us : List Token,
            us.length ≤ n + 1 →
              Expr.Sentence .expression
                  (us.map Token.kind) →
                ∃ e,
                  Expr.Derives .expression depth groups
                    us e := by
        intro us hus h
        have hRoom :
            us.length + Level.expression.surplus ≤ depth := by
          simp only [Level.surplus]
          omega
        exact h.exists_derives rfl hRoom (by omega)
      generalize hks : ts.map Token.kind = ks at hSentence
      cases hSentence with
      | expression inner hEnd =>
          rcases List.map_eq_append_iff.mp hks with
            ⟨us, vs, rfl, rfl, rfl⟩
          rw [List.length_append] at hts
          rcases hExpr us (by omega) inner with ⟨e, he⟩
          exact ⟨_, .expression he (.of_maySemicolon hEnd)⟩
      | print inner hEnd =>
          rcases List.map_eq_append_iff.mp hks with
            ⟨us, vs, rfl, hus, rfl⟩
          rcases List.map_eq_cons_iff.mp hus with
            ⟨word, us, rfl, hWord, rfl⟩
          simp only [List.length_append, List.length_cons]
            at hts
          rcases hExpr us (by omega) inner with ⟨e, he⟩
          exact ⟨_,
            .print hWord he (.of_maySemicolon hEnd)⟩
      | block body hEnd =>
          rcases List.map_eq_append_iff.mp hks with
            ⟨us, vs, rfl, hus, hvs⟩
          rcases List.map_eq_cons_iff.mp hus with
            ⟨opening, us, rfl, hOpening, rfl⟩
          rcases List.map_eq_cons_iff.mp hvs with
            ⟨closing, vs, rfl, hClosing, rfl⟩
          simp only [List.length_append, List.length_cons]
            at hts
          have hBody :
              ∃ ds,
                Decl.ReadsAll groups depth us
                  (some .rightBrace) ds :=
            hLess.readsAll (by omega) (by omega) (by omega)
              body.separated (by simp)
          rcases hBody with ⟨ds, hds⟩
          exact ⟨_, .block hOpening hds hClosing
            (.of_maySemicolon hEnd)⟩
      | ifThen test first =>
          rcases Token.exists_condition hks with
            ⟨word, left, us, right, vs, rfl, hWord, hLeft,
              rfl, hRight, rfl⟩
          simp only [List.length_append, List.length_cons]
            at hts
          rcases hExpr us (by omega) test with ⟨e, he⟩
          rcases hLess vs (by omega) first with ⟨s, hs⟩
          exact ⟨_,
            .ifThen hWord hLeft he hRight hs nofun⟩
      | ifElse test first second =>
          rcases List.map_eq_append_iff.mp hks with
            ⟨xs, ys, rfl, hxs, hys⟩
          rcases Token.exists_condition hxs with
            ⟨word, left, us, right, vs, rfl, hWord, hLeft,
              rfl, hRight, rfl⟩
          rcases List.map_eq_cons_iff.mp hys with
            ⟨separator, ws, rfl, hElse, rfl⟩
          simp only [List.length_append, List.length_cons]
            at hts
          rcases hExpr us (by omega) test with ⟨e, he⟩
          rcases hLess vs (by omega) first with ⟨s, hs⟩
          cases hOpen : s.endsOpen with
          | false =>
              have hBefore :
                  EndedBefore vs (some .elseWord) := by
                rintro k ⟨⟩
                refine .inr ⟨by simp, .inr ?_⟩
                rintro (⟨hEqual, -⟩ | ⟨c, hc, -⟩)
                · cases hEqual
                · cases c <;> cases hc
              have hFirst := hs.before hBefore
                (by simp [hOpen])
              rcases hLess ws (by omega) second with
                ⟨other, hOther⟩
              exact ⟨_, .ifElse hWord hLeft he hRight hFirst
                hElse hOther⟩
          | true =>
              have hWhole :
                  Stmt.Sentence
                    ((vs ++ separator :: ws).map
                      Token.kind) := by
                rw [List.map_append, List.map_cons, hElse]
                exact hs.derives.sentence_append_else hOpen
                  second
              rcases hLess (vs ++ separator :: ws)
                  (by simp; omega) hWhole with
                ⟨s', hs'⟩
              refine ⟨.ifThen e s', ?_⟩
              rw [List.append_assoc, List.cons_append]
              exact .ifThen hWord hLeft he hRight hs' nofun

------------------------------------------------------------
-- Programs
------------------------------------------------------------

namespace Decl

/- Sentences are read as declarations, and only these. -/
theorem exists_readsAll_iff_sentences
    (hDepth : ts.length + 2 ≤ depth)
    (hGroups : ts.length ≤ groups) :
    (∃ ds, ReadsAll groups depth ts none ds) ↔
      Sentences (ts.map Token.kind) := by
  constructor
  · rintro ⟨ds, hds⟩
    exact hds.derivesAll.sentences
  · intro h
    have hAccepts : Stmt.AcceptsUpTo groups depth ts.length :=
      Stmt.acceptsUpTo ts.length hDepth hGroups
    exact hAccepts.readsAll (Nat.le_refl _) (by omega) hGroups
      h.separated nofun

/-
  With room for twice as many levels and parentheses as there
  are tokens, and two more, a program is read without errors
  exactly if its tokens form a sentence of the documented
  grammar.  It is then read as declarations that are derived
  from its tokens, all of them and in order: operators of a
  chain are grouped from the left, assignments from the
  right, and an `else` belongs to the nearest statement.
-/
theorem errorsOf_programWithin_eq_nil
    (hTokens : ∀ t ∈ ts, ¬ t.kind = .endOfInput)
    (hDepth : 2 * (ts.length : Int) + 2 ≤ limits.depth)
    (hGroups : 2 * (ts.length : Int) + 2 ≤ limits.groups) :
    (errorsOf (programWithin limits ts) = [] ↔
      Sentences (ts.map Token.kind)) ∧
    (errorsOf (programWithin limits ts) = [] →
      ∃ ds,
        programWithin limits ts = ds.map .ok ∧
          DerivesAll .optional limits.groupRoom
            limits.depthRoom ts ds) := by
  have hRooms :
      ts.length + 2 ≤ limits.depthRoom ∧
        ts.length ≤ limits.groupRoom := by
    unfold Limits.depthRoom Limits.groupRoom
    omega
  have hProgram :
      programWithin limits ts =
        parseAll ⟨limits, endLine ts⟩ ts := by
    unfold programWithin
    rw [body_eq_self hTokens]
  rw [hProgram, errorsOf_eq_nil,
    ← exists_readsAll_iff_sentences hRooms.1 hRooms.2]
  refine ⟨exists_congr fun ds => parseAll_eq_map_ok, ?_⟩
  rintro ⟨ds, hds⟩
  exact ⟨ds, hds, (parseAll_eq_map_ok.mp hds).derivesAll⟩

/- Two conditions, and a branch that belongs to the second. -/
def danglingElse : List Token :=
  [.plain .ifWord "if", .plain .leftParen "(",
    .plain .identifier "a", .plain .rightParen ")",
    .plain .ifWord "if", .plain .leftParen "(",
    .plain .identifier "b", .plain .rightParen ")",
    .plain .identifier "c", .plain .elseWord "else",
    .plain .minus "-", .plain .identifier "d"]

/- The branch is read, and the limits leave room enough. -/
theorem errorsOf_programWithin_eq_nil_danglingElse :
    ((∀ t ∈ danglingElse, ¬ t.kind = .endOfInput) ∧
      2 * (danglingElse.length : Int) + 2 ≤ 26) ∧
    (errorsOf (programWithin ⟨26, 26⟩ danglingElse) = [] ↔
      Sentences (danglingElse.map Token.kind)) ∧
    (errorsOf (programWithin ⟨26, 26⟩ danglingElse) = [] →
      ∃ ds,
        programWithin ⟨26, 26⟩ danglingElse = ds.map .ok ∧
          DerivesAll .optional 26 26 danglingElse ds) := by
  refine ⟨⟨by decide, by decide⟩, ?_⟩
  exact errorsOf_programWithin_eq_nil (by decide)
    (by decide) (by decide)

end Decl

end Lox
