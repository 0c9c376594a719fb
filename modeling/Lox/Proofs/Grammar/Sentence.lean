import Lox.Proofs.Grammar.Greedy

/-
  The grammar as it is documented, on the kinds of tokens.

  There are no trees and no limits here, and nothing says
  where a part ends: a minus after an expression may go on
  with it or start a statement, and an `else` may belong to
  any statement that lacks one.  Every sentence has a form
  in which no declaration goes on into the next one.

  Key definitions include:
    * `Expr.Sentence`
    * `Stmt.Sentence`
    * `Decl.Sentences`
    * `Decl.Separated`

  Key theorems include:
    * `Decl.DerivesAll.sentences`
    * `Expr.Sentence.append_minus`
    * `Decl.Sentences.separated`
    * `Stmt.Derives.sentence_append_else`
-/

namespace Lox

------------------------------------------------------------
-- Sentences
------------------------------------------------------------

/- Kinds that form an expression of a level. -/
inductive Expr.Sentence :
    Level → List Kind → Prop where
  | expression
      {ks : List Kind}
      (inner : Expr.Sentence .assignment ks) :
      Expr.Sentence .expression ks
  | assign
      {ks : List Kind}
      (inner : Expr.Sentence .assignment ks) :
      Expr.Sentence .assignment (.identifier :: .equal :: ks)
  | plain
      {ks : List Kind}
      (inner : Expr.Sentence (.chain .disjunction) ks) :
      Expr.Sentence .assignment ks
  | operand
      {ks : List Kind} {c : Chain}
      (inner : Expr.Sentence c.operand ks) :
      Expr.Sentence (.chain c) ks
  | link
      {ks ls : List Kind} {c : Chain} {k : Kind}
      (first : Expr.Sentence (.chain c) ks)
      (hOp : c.holds k = true)
      (second : Expr.Sentence c.operand ls) :
      Expr.Sentence (.chain c) (ks ++ k :: ls)
  | unary
      {ks : List Kind} {k : Kind}
      (hOp : k.isPrefixOperator = true)
      (inner : Expr.Sentence .unary ks) :
      Expr.Sentence .unary (k :: ks)
  | primary
      {ks : List Kind}
      (inner : Expr.Sentence .primary ks) :
      Expr.Sentence .unary ks
  | literal
      {k : Kind}
      (hLiteral : k.isLiteral = true) :
      Expr.Sentence .primary [k]
  | identifier :
      Expr.Sentence .primary [.identifier]
  | grouping
      {ks : List Kind}
      (inner : Expr.Sentence .expression ks) :
      Expr.Sentence .primary
        (.leftParen :: ks ++ [.rightParen])

/- A semicolon, or nothing. -/
def MaySemicolon
    (ks : List Kind) : Prop :=
  ks = [] ∨ ks = [.semicolon]

mutual

/- Kinds that form a statement. -/
inductive Stmt.Sentence : List Kind → Prop where
  | expression
      {ks ls : List Kind}
      (inner : Expr.Sentence .expression ks)
      (hEnd : MaySemicolon ls) :
      Stmt.Sentence (ks ++ ls)
  | print
      {ks ls : List Kind}
      (inner : Expr.Sentence .expression ks)
      (hEnd : MaySemicolon ls) :
      Stmt.Sentence (.printWord :: ks ++ ls)
  | block
      {ks ls : List Kind}
      (body : Decl.Sentences ks)
      (hEnd : MaySemicolon ls) :
      Stmt.Sentence (.leftBrace :: ks ++ .rightBrace :: ls)
  | ifThen
      {ks ls : List Kind}
      (test : Expr.Sentence .expression ks)
      (first : Stmt.Sentence ls) :
      Stmt.Sentence
        (.ifWord :: .leftParen :: ks ++ .rightParen :: ls)
  | ifElse
      {ks ls ms : List Kind}
      (test : Expr.Sentence .expression ks)
      (first : Stmt.Sentence ls)
      (second : Stmt.Sentence ms) :
      Stmt.Sentence
        (.ifWord :: .leftParen :: ks ++ .rightParen :: ls ++
          .elseWord :: ms)

/- Kinds that form a declaration. -/
inductive Decl.Sentence : List Kind → Prop where
  | declare
      {ls : List Kind}
      (hEnd : MaySemicolon ls) :
      Decl.Sentence (.varWord :: .identifier :: ls)
  | declareWith
      {ks ls : List Kind}
      (inner : Expr.Sentence .expression ks)
      (hEnd : MaySemicolon ls) :
      Decl.Sentence
        (.varWord :: .identifier :: .equal :: ks ++ ls)
  | statement
      {ks : List Kind}
      (inner : Stmt.Sentence ks) :
      Decl.Sentence ks

/- Kinds that form declarations, one after the other. -/
inductive Decl.Sentences : List Kind → Prop where
  | nil :
      Decl.Sentences []
  | cons
      {ks ls : List Kind}
      (first : Decl.Sentence ks)
      (more : Decl.Sentences ls) :
      Decl.Sentences (ks ++ ls)

end

variable {groups depth : Nat}
variable {level : Level} {c : Chain}
variable {ts us : List Token}
variable {ks ls ms : List Kind} {k : Kind}
variable {e : Expr} {s : Stmt} {d : Decl} {ds : List Decl}

------------------------------------------------------------
-- Derivations Are Sentences
------------------------------------------------------------

/- An expression is derived from a sentence. -/
theorem Expr.Derives.sentence
    (h : Derives level depth groups ts e) :
    Sentence level (ts.map Token.kind) := by
  induction h with
  | expression inner ih => exact .expression ih
  | assign hName hEquals inner ih =>
      rw [List.map_cons, List.map_cons, hName, hEquals]
      exact .assign ih
  | plain inner ih => exact .plain ih
  | operand inner ih => exact .operand ih
  | link first hOp hDepth second ihFirst ihSecond =>
      rw [List.map_append, List.map_cons]
      exact .link ihFirst hOp ihSecond
  | unary hOp inner ih => exact .unary hOp ih
  | primary inner ih => exact .primary ih
  | literal hLiteral => exact .literal hLiteral
  | identifier hName =>
      rw [List.map_singleton, hName]
      exact .identifier
  | grouping hOpening inner hClosing ih =>
      rw [List.map_append, List.map_cons, List.map_singleton,
        hOpening, hClosing]
      exact .grouping ih

/- An ending has the kinds of one. -/
theorem MaySemicolon.of_optional
    (h : us = [] ∨ IsOne .semicolon us) :
    MaySemicolon (us.map Token.kind) := by
  rcases h with rfl | ⟨t, rfl, ht⟩
  · exact .inl rfl
  · exact .inr (by rw [List.map_singleton, ht])

/- A declaration is derived from one if statements are. -/
theorem Decl.Derives.sentence_of
    (hStatement :
      ∀ ts s,
        Stmt.Derives .optional groups depth ts s →
          Stmt.Sentence (ts.map Token.kind))
    (h : Decl.Derives .optional groups depth ts d) :
    Decl.Sentence (ts.map Token.kind) := by
  cases h with
  | declare hWord hName hEnd =>
      rw [List.map_cons, List.map_cons, hWord, hName]
      exact .declare (.of_optional hEnd)
  | declareWith hWord hName hEquals inner hEnd =>
      rw [List.map_append, List.map_cons, List.map_cons,
        List.map_cons, hWord, hName, hEquals]
      exact .declareWith inner.sentence (.of_optional hEnd)
  | statement inner => exact .statement (hStatement _ _ inner)

/- Declarations are derived so if each of them is. -/
theorem Decl.DerivesAll.sentences_of
    (hDeclaration :
      ∀ ts d,
        Decl.Derives .optional groups depth ts d →
          Decl.Sentence (ts.map Token.kind))
    (h : Decl.DerivesAll .optional groups depth ts ds) :
    Decl.Sentences (ts.map Token.kind) := by
  induction ds generalizing ts with
  | nil =>
      cases h
      exact .nil
  | cons d ds ih =>
      cases h with
      | cons first more =>
          rw [List.map_append]
          exact .cons (hDeclaration _ _ first) (ih more)

/- A statement is derived from a sentence. -/
theorem Stmt.Derives.sentence
    (h : Stmt.Derives .optional groups depth ts s) :
    Stmt.Sentence (ts.map Token.kind) := by
  induction depth generalizing ts s with
  | zero => cases h
  | succ depth ih =>
      cases h with
      | expression inner hEnd =>
          rw [List.map_append]
          exact .expression inner.sentence (.of_optional hEnd)
      | print hWord inner hEnd =>
          rw [List.map_append, List.map_cons, hWord]
          exact .print inner.sentence (.of_optional hEnd)
      | block hOpening body hClosing hEnd =>
          rw [List.map_append, List.map_cons, List.map_cons,
            hOpening, hClosing]
          have hBody := body.sentences_of fun _ _ hd =>
            hd.sentence_of fun _ _ hs => ih hs
          exact .block hBody (.of_optional hEnd)
      | ifThen hWord hOpening test hClosing first =>
          rw [List.map_append, List.map_cons, List.map_cons,
            List.map_cons, hWord, hOpening, hClosing]
          exact .ifThen test.sentence (ih first)
      | ifElse hWord hOpening test hClosing first hClosed
          hSeparator second =>
          rw [List.map_append, List.map_append, List.map_cons,
            List.map_cons, List.map_cons, List.map_cons,
            hWord, hOpening, hClosing, hSeparator]
          exact .ifElse test.sentence (ih first) (ih second)

/- Declarations are derived from sentences. -/
theorem Decl.DerivesAll.sentences
    (h : Decl.DerivesAll .optional groups depth ts ds) :
    Decl.Sentences (ts.map Token.kind) :=
  h.sentences_of fun _ _ hd =>
    hd.sentence_of fun _ _ hs => hs.sentence

/-
  A second branch may be added to a statement that ends
  open: it then belongs to a statement within.
-/
theorem Stmt.Derives.sentence_append_else
    (h : Stmt.Derives .optional groups depth ts s)
    (hOpen : s.endsOpen = true)
    (hOther : Stmt.Sentence ms) :
    Stmt.Sentence (ts.map Token.kind ++ .elseWord :: ms) := by
  induction depth generalizing ts s with
  | zero => cases h
  | succ depth ih =>
      cases h with
      | expression inner hEnd => cases hOpen
      | print hWord inner hEnd => cases hOpen
      | block hOpening body hClosing hEnd => cases hOpen
      | ifThen hWord hOpening test hClosing first =>
          rw [List.map_append, List.map_cons, List.map_cons,
            List.map_cons, hWord, hOpening, hClosing]
          exact .ifElse test.sentence first.sentence hOther
      | ifElse hWord hOpening test hClosing first hClosed
          hSeparator second =>
          rw [List.map_append, List.map_append, List.map_cons,
            List.map_cons, List.map_cons, List.map_cons,
            hWord, hOpening, hClosing, hSeparator,
            List.append_assoc, List.cons_append]
          exact .ifElse test.sentence first.sentence
            (ih second hOpen)

------------------------------------------------------------
-- First and Last Kinds
------------------------------------------------------------

/- An expression starts with a fitting kind. -/
theorem Expr.Sentence.eq_cons
    (h : Sentence level ks) :
    ∃ k ls, ks = k :: ls ∧ k.startsExpr = true := by
  induction h with
  | expression inner ih => exact ih
  | assign inner ih => exact ⟨_, _, rfl, rfl⟩
  | plain inner ih => exact ih
  | operand inner ih => exact ih
  | link first hOp second ihFirst ihSecond =>
      rcases ihFirst with ⟨k, ls, rfl, hk⟩
      exact ⟨k, _, rfl, hk⟩
  | unary hOp inner ih =>
      exact ⟨_, _, rfl, by simp [Kind.startsExpr, hOp]⟩
  | primary inner ih => exact ih
  | literal hLiteral =>
      exact ⟨_, _, rfl, by simp [Kind.startsExpr, hLiteral]⟩
  | identifier => exact ⟨_, _, rfl, rfl⟩
  | grouping inner ih => exact ⟨_, _, rfl, rfl⟩

/- No operand that needs no operator starts with a minus. -/
theorem Expr.Sentence.not_primary_minus :
    ¬ Sentence .primary (.minus :: ls) := by
  intro h
  cases h with
  | literal hLiteral => cases hLiteral

/- A statement starts with a fitting kind. -/
theorem Stmt.Sentence.eq_cons
    (h : Stmt.Sentence ks) :
    ∃ k ls, ks = k :: ls ∧ k.startsStmt = true := by
  cases h with
  | expression inner hEnd =>
      rcases inner.eq_cons with ⟨k, ls, rfl, hk⟩
      exact ⟨k, _, rfl, by simp [Kind.startsStmt, hk]⟩
  | print inner hEnd => exact ⟨_, _, rfl, rfl⟩
  | block body hEnd => exact ⟨_, _, rfl, rfl⟩
  | ifThen test first => exact ⟨_, _, rfl, rfl⟩
  | ifElse test first second => exact ⟨_, _, rfl, rfl⟩

/- A declaration starts with a fitting kind. -/
theorem Decl.Sentence.eq_cons
    (h : Decl.Sentence ks) :
    ∃ k ls, ks = k :: ls ∧ k.startsDecl = true := by
  cases h with
  | declare hEnd => exact ⟨_, _, rfl, rfl⟩
  | declareWith inner hEnd => exact ⟨_, _, rfl, rfl⟩
  | statement inner =>
      rcases inner.eq_cons with ⟨k, ls, rfl, hk⟩
      exact ⟨k, ls, rfl, by simp [Kind.startsDecl, hk]⟩

/-
  Whether kinds end so that no expression in them goes on:
  with a semicolon or with a brace.
-/
def EndsClosed
    (ks : List Kind) : Prop :=
  ks.getLast? = some .semicolon ∨
    ks.getLast? = some .rightBrace

/- The last part of kinds tells how they end. -/
theorem endsClosed_append
    (h : ls ≠ []) :
    EndsClosed (ks ++ ls) ↔ EndsClosed ls := by
  unfold EndsClosed
  rw [List.getLast?_append, List.getLast?_eq_some_getLast h,
    Option.some_or]

/- What ends with a semicolon ends closed. -/
theorem endsClosed_semicolon :
    EndsClosed (ks ++ [.semicolon]) :=
  .inl List.getLast?_concat

/- A part that does not end closed has no semicolon. -/
theorem MaySemicolon.eq_nil
    (h : MaySemicolon ls)
    (hOpen : ¬ EndsClosed (ks ++ ls)) :
    ls = [] := by
  rcases h with rfl | rfl
  · rfl
  · exact absurd endsClosed_semicolon hOpen

------------------------------------------------------------
-- Going On with a Minus
------------------------------------------------------------

namespace Expr.Sentence

/-
  What holds of an operand after a minus, and is kept by the
  links of a chain, holds of a chain after a minus.
-/
theorem minus_induction
    {Q : List Kind → Prop}
    (operand :
      ∀ ls, Sentence c.operand (.minus :: ls) → Q ls)
    (link :
      ∀ ls k ms, Q ls → c.holds k = true →
        Sentence c.operand ms → Q (ls ++ k :: ms))
    (h : Sentence (.chain c) (.minus :: ls)) :
    Q ls := by
  generalize hLevel : Level.chain c = level at h
  generalize hks : .minus :: ls = ks at h
  induction h generalizing ls with
  | expression inner ih => cases hLevel
  | assign inner ih => cases hLevel
  | plain inner ih => cases hLevel
  | operand inner ih =>
      cases hLevel
      subst hks
      exact operand ls inner
  | @link ks ms d k first hOp second ihFirst ihSecond =>
      cases hLevel
      rcases first.eq_cons with ⟨k', ks', rfl, -⟩
      rw [List.cons_append, List.cons.injEq] at hks
      rcases hks with ⟨rfl, rfl⟩
      exact link ks' k ms (ihFirst rfl rfl) hOp second
  | unary hOp inner ih => cases hLevel
  | primary inner ih => cases hLevel
  | literal hLiteral => cases hLevel
  | identifier => cases hLevel
  | grouping inner ih => cases hLevel

/- The minus may be left out in front of factors. -/
theorem factor_of_minus
    (h : Sentence (.chain .factor) (.minus :: ls)) :
    Sentence (.chain .factor) ls := by
  refine h.minus_induction (fun ls inner => ?_)
    fun ls k ms hls hOp hms => .link hls hOp hms
  cases inner with
  | unary hOp inner => exact .operand (c := .factor) inner
  | primary inner => exact absurd inner not_primary_minus

/- Terms go on with a minus in front of terms. -/
theorem append_minus_term
    (h : Sentence (.chain .term) ks)
    (hNext : Sentence (.chain .term) (.minus :: ls)) :
    Sentence (.chain .term) (ks ++ .minus :: ls) := by
  refine hNext.minus_induction
    (Q := fun ls => Sentence (.chain .term)
      (ks ++ .minus :: ls))
    (fun ls inner => ?_) fun ls k ms hls hOp hms => ?_
  · exact .link h rfl (factor_of_minus inner)
  · rw [← List.cons_append, ← List.append_assoc]
    exact .link hls hOp hms

/- A chain goes on with a minus if its operands do. -/
theorem append_minus_chain
    (hOperand :
      ∀ ks ls,
        Sentence c.operand ks →
          Sentence c.operand (.minus :: ls) →
          Sentence c.operand (ks ++ .minus :: ls))
    (h : Sentence (.chain c) ks)
    (hNext : Sentence (.chain c) (.minus :: ls)) :
    Sentence (.chain c) (ks ++ .minus :: ls) := by
  refine hNext.minus_induction
    (Q := fun ls => Sentence (.chain c) (ks ++ .minus :: ls))
    (fun ls inner => ?_) fun ls k ms hls hOp hms => ?_
  · cases h with
    | operand first => exact .operand (hOperand _ _ first inner)
    | link first hOp second =>
        rw [List.append_assoc, List.cons_append]
        exact .link first hOp (hOperand _ _ second inner)
  · rw [← List.cons_append, ← List.append_assoc]
    exact .link hls hOp hms

/- The loosest chain goes on with a minus. -/
theorem append_minus_disjunction
    (h : Sentence (.chain .disjunction) ks)
    (hNext : Sentence (.chain .disjunction) (.minus :: ls)) :
    Sentence (.chain .disjunction) (ks ++ .minus :: ls) := by
  have hComparison :
      ∀ ks ls,
        Sentence (.chain .comparison) ks →
          Sentence (.chain .comparison) (.minus :: ls) →
          Sentence (.chain .comparison) (ks ++ .minus :: ls) :=
    fun _ _ => append_minus_chain
      fun _ _ => append_minus_term
  have hEquality :
      ∀ ks ls,
        Sentence (.chain .equality) ks →
          Sentence (.chain .equality) (.minus :: ls) →
          Sentence (.chain .equality) (ks ++ .minus :: ls) :=
    fun _ _ => append_minus_chain hComparison
  have hConjunction :
      ∀ ks ls,
        Sentence (.chain .conjunction) ks →
          Sentence (.chain .conjunction) (.minus :: ls) →
          Sentence (.chain .conjunction)
            (ks ++ .minus :: ls) :=
    fun _ _ => append_minus_chain hEquality
  exact append_minus_chain hConjunction h hNext

/- An expression goes on with a minus. -/
theorem append_minus
    (h : Sentence .expression ks)
    (hNext : Sentence .expression (.minus :: ls)) :
    Sentence .expression (ks ++ .minus :: ls) := by
  have hDisjunction :
      Sentence (.chain .disjunction) (.minus :: ls) := by
    cases hNext with
    | expression inner =>
        cases inner with
        | plain inner => exact inner
  have hAssignment :
      ∀ level ks, Sentence level ks → level = .assignment →
        Sentence .assignment (ks ++ .minus :: ls) := by
    intro level ks h
    induction h with
    | assign inner ih =>
        intro hLevel
        exact .assign (ih rfl)
    | plain inner ih =>
        intro hLevel
        exact .plain
          (inner.append_minus_disjunction hDisjunction)
    | _ =>
        intro hLevel
        cases hLevel
  cases h with
  | expression inner =>
      exact .expression (hAssignment _ _ inner rfl)

end Expr.Sentence

/- A statement that starts with a minus is an expression. -/
theorem Stmt.Sentence.exists_of_minus
    (h : Stmt.Sentence (.minus :: ls)) :
    ∃ ks ms,
      ls = ks ++ ms ∧
        Expr.Sentence .expression (.minus :: ks) ∧
        MaySemicolon ms := by
  generalize hks : .minus :: ls = ks at h
  cases h with
  | @expression ks ms inner hEnd =>
      rcases inner.eq_cons with ⟨k, ks, rfl, -⟩
      rw [List.cons_append, List.cons.injEq] at hks
      rcases hks with ⟨rfl, rfl⟩
      exact ⟨ks, ms, rfl, inner, hEnd⟩
  | print inner hEnd => cases hks
  | block body hEnd => cases hks
  | ifThen test first => cases hks
  | ifElse test first second => cases hks

/- An expression and its ending go on if not ended. -/
theorem Expr.Sentence.append_minus_ending
    (h : Sentence .expression ks)
    (hEnd : MaySemicolon ms)
    (hOpen : ¬ EndsClosed (ks ++ ms))
    (hNext : Stmt.Sentence (.minus :: ls)) :
    ∃ ns os,
      ks ++ ms ++ .minus :: ls = ns ++ os ∧
        Sentence .expression ns ∧ MaySemicolon os := by
  rcases hNext.exists_of_minus with
    ⟨ns, os, rfl, hInner, hLast⟩
  rw [hEnd.eq_nil hOpen]
  refine ⟨ks ++ .minus :: ns, os, ?_,
    h.append_minus hInner, hLast⟩
  simp

/-
  A statement that does not end closed goes on with a minus.
  The induction is on the length, as only branches matter.
-/
theorem Stmt.Sentence.append_minus
    (h : Stmt.Sentence ks)
    (hOpen : ¬ EndsClosed ks)
    (hNext : Stmt.Sentence (.minus :: ls)) :
    Stmt.Sentence (ks ++ .minus :: ls) := by
  induction hLength : ks.length using Nat.strongRecOn
      generalizing ks with
  | ind n ih =>
      cases h with
      | expression inner hEnd =>
          rcases inner.append_minus_ending hEnd hOpen hNext
            with ⟨ns, os, hks, hInner, hLast⟩
          rw [hks]
          exact .expression hInner hLast
      | @print ks ms inner hEnd =>
          have hRest : ¬ EndsClosed (ks ++ ms) := by
            rcases inner.eq_cons with ⟨k, ks, rfl, -⟩
            rwa [List.cons_append, ← List.singleton_append,
              endsClosed_append (by simp)] at hOpen
          rcases inner.append_minus_ending hEnd hRest hNext
            with ⟨ns, os, hks, hInner, hLast⟩
          rw [List.cons_append, List.cons_append, hks]
          exact .print hInner hLast
      | @block ks ms body hEnd =>
          refine absurd ?_ hOpen
          rcases hEnd with rfl | rfl
          · exact .inr List.getLast?_concat
          · rw [List.append_cons]
            exact endsClosed_semicolon
      | @ifThen ks ms test first =>
          rcases first.eq_cons with ⟨k, ms', hms, -⟩
          have hRest : ¬ EndsClosed ms := by
            rwa [List.append_cons,
              endsClosed_append (by simp [hms])] at hOpen
          have hFirst := ih ms.length (by simp at hLength; omega)
            first hRest rfl
          rw [List.append_assoc, List.cons_append]
          exact .ifThen test hFirst
      | @ifElse ks ms ns test first second =>
          rcases second.eq_cons with ⟨k, ns', hns, -⟩
          have hRest : ¬ EndsClosed ns := by
            rwa [List.append_cons,
              endsClosed_append (by simp [hns])] at hOpen
          have hSecond := ih ns.length (by simp at hLength; omega)
            second hRest rfl
          rw [List.append_assoc, List.cons_append]
          exact .ifElse test first hSecond

------------------------------------------------------------
-- Separated Declarations
------------------------------------------------------------

namespace Decl

/-
  Whether a declaration goes on with no minus: it ends so, or
  it gives a variable no value.
-/
def IsClosed
    (ks : List Kind) : Prop :=
  EndsClosed ks ∨ ks = [.varWord, .identifier]

/- Declarations none of which goes on into the next one. -/
inductive Separated : List Kind → Prop where
  | nil :
      Separated []
  | cons
      {ks ls : List Kind}
      (first : Decl.Sentence ks)
      (more : Separated ls)
      (hApart : ls.head? = some .minus → IsClosed ks) :
      Separated (ks ++ ls)

/- What separated declarations start with. -/
theorem Separated.startsDecl
    (h : Separated ks)
    (hk : ks.head? = some k) :
    k.startsDecl = true := by
  cases h with
  | nil => cases hk
  | cons first more hApart =>
      rcases first.eq_cons with ⟨k, ls, rfl, hStarts⟩
      cases hk
      exact hStarts

/- A declaration that is not closed goes on with a minus. -/
theorem Sentence.append_minus
    (h : Decl.Sentence ks)
    (hOpen : ¬ IsClosed ks)
    (hNext : Decl.Sentence (.minus :: ls)) :
    Decl.Sentence (ks ++ .minus :: ls) := by
  have hNext : Stmt.Sentence (.minus :: ls) := by
    generalize hks : .minus :: ls = ks at hNext
    cases hNext with
    | declare hEnd => cases hks
    | declareWith inner hEnd => cases hks
    | statement inner => exact inner
  rcases not_or.mp hOpen with ⟨hOpen, hValue⟩
  cases h with
  | declare hEnd =>
      rcases hEnd with rfl | rfl
      · exact absurd rfl hValue
      · exact absurd (.inl rfl) hOpen
  | @declareWith ks ms inner hEnd =>
      have hRest : ¬ EndsClosed (ks ++ ms) := by
        rcases inner.eq_cons with ⟨k, ks, rfl, -⟩
        have hParts :
            .varWord :: .identifier :: .equal ::
                (k :: ks) ++ ms =
              [.varWord, .identifier, .equal] ++
                (k :: ks ++ ms) :=
          rfl
        rwa [hParts, endsClosed_append (by simp)] at hOpen
      rcases inner.append_minus_ending hEnd hRest hNext with
        ⟨ns, os, hks, hInner, hLast⟩
      have hAll := Decl.Sentence.declareWith hInner hLast
      rw [List.cons_append, List.cons_append,
        List.cons_append, ← hks] at hAll
      simpa using hAll
  | statement inner =>
      exact .statement (inner.append_minus hOpen hNext)

/-
  A declaration in front of separated ones is one of them,
  or goes on into the first of them.
-/
theorem Separated.append
    (h : Separated ls)
    (hFirst : Decl.Sentence ks) :
    Separated (ks ++ ls) := by
  by_cases hApart : ls.head? = some .minus → IsClosed ks
  · exact .cons hFirst h hApart
  · rcases Classical.not_imp.mp hApart with ⟨hMinus, hOpen⟩
    cases h with
    | nil => cases hMinus
    | @cons ms ls next more hNextApart =>
        rcases next.eq_cons with ⟨k, ms, rfl, -⟩
        rw [List.cons_append, List.head?_cons,
          Option.some.injEq] at hMinus
        subst hMinus
        rw [← List.append_assoc]
        refine .cons (hFirst.append_minus hOpen next) more ?_
        intro hHead
        rcases hNextApart hHead with hEnds | hValue
        · exact .inl
            ((endsClosed_append (List.cons_ne_nil _ _)).mpr
              hEnds)
        · cases hValue

/- Declarations form a sentence of separated ones. -/
theorem Sentences.separated
    (h : Decl.Sentences ks) :
    Separated ks := by
  induction hLength : ks.length using Nat.strongRecOn
      generalizing ks with
  | ind n ih =>
      cases h with
      | nil => exact .nil
      | @cons ks ls first more =>
          rcases first.eq_cons with ⟨k, ks', hks, -⟩
          have hLess : ls.length < n := by
            simp [hks] at hLength
            omega
          exact (ih ls.length hLess more rfl).append first

end Decl

end Lox
