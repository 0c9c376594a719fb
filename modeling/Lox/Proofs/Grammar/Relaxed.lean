import Lox.Proofs.Grammar.Sentence

/-
  A grammar that checks no targets of assignments.

  The reader looks at what stands before an equality sign
  after it has read the value, so that up to there, it goes
  by a grammar in which anything can be assigned to.  In this
  grammar, expressions are flat: with an operator or an
  equality sign between them, two expressions form one.

  Key definitions include:
    * `Expr.Relaxed`
    * `Stmt.Relaxed`
    * `Decl.RelaxedAll`
    * `Expr.Tail`
    * `Expr.Opens`

  Key theorems include:
    * `Expr.Relaxed.append`
    * `Expr.relaxed_cons`
-/

namespace Lox

------------------------------------------------------------
-- The Grammar
------------------------------------------------------------

/-
  Kinds that form an expression of a level, if anything can
  be assigned to.
-/
inductive Expr.Relaxed :
    Level → List Kind → Prop where
  | expression
      {ks : List Kind}
      (inner : Expr.Relaxed .assignment ks) :
      Expr.Relaxed .expression ks
  | assign
      {ks ls : List Kind}
      (target : Expr.Relaxed (.chain .disjunction) ks)
      (value : Expr.Relaxed .assignment ls) :
      Expr.Relaxed .assignment (ks ++ .equal :: ls)
  | plain
      {ks : List Kind}
      (inner : Expr.Relaxed (.chain .disjunction) ks) :
      Expr.Relaxed .assignment ks
  | operand
      {ks : List Kind} {c : Chain}
      (inner : Expr.Relaxed c.operand ks) :
      Expr.Relaxed (.chain c) ks
  | link
      {ks ls : List Kind} {c : Chain} {k : Kind}
      (first : Expr.Relaxed (.chain c) ks)
      (hOp : c.holds k = true)
      (second : Expr.Relaxed c.operand ls) :
      Expr.Relaxed (.chain c) (ks ++ k :: ls)
  | unary
      {ks : List Kind} {k : Kind}
      (hOp : k.isPrefixOperator = true)
      (inner : Expr.Relaxed .unary ks) :
      Expr.Relaxed .unary (k :: ks)
  | primary
      {ks : List Kind}
      (inner : Expr.Relaxed .primary ks) :
      Expr.Relaxed .unary ks
  | literal
      {k : Kind}
      (hLiteral : k.isLiteral = true) :
      Expr.Relaxed .primary [k]
  | identifier :
      Expr.Relaxed .primary [.identifier]
  | grouping
      {ks : List Kind}
      (inner : Expr.Relaxed .expression ks) :
      Expr.Relaxed .primary
        (.leftParen :: ks ++ [.rightParen])

mutual

/- Kinds that form a statement with such expressions. -/
inductive Stmt.Relaxed : List Kind → Prop where
  | expression
      {ks ls : List Kind}
      (inner : Expr.Relaxed .expression ks)
      (hEnd : MaySemicolon ls) :
      Stmt.Relaxed (ks ++ ls)
  | print
      {ks ls : List Kind}
      (inner : Expr.Relaxed .expression ks)
      (hEnd : MaySemicolon ls) :
      Stmt.Relaxed (.printWord :: ks ++ ls)
  | block
      {ks ls : List Kind}
      (body : Decl.RelaxedAll ks)
      (hEnd : MaySemicolon ls) :
      Stmt.Relaxed (.leftBrace :: ks ++ .rightBrace :: ls)
  | ifThen
      {ks ls : List Kind}
      (test : Expr.Relaxed .expression ks)
      (first : Stmt.Relaxed ls) :
      Stmt.Relaxed
        (.ifWord :: .leftParen :: ks ++ .rightParen :: ls)
  | ifElse
      {ks ls ms : List Kind}
      (test : Expr.Relaxed .expression ks)
      (first : Stmt.Relaxed ls)
      (second : Stmt.Relaxed ms) :
      Stmt.Relaxed
        (.ifWord :: .leftParen :: ks ++ .rightParen :: ls ++
          .elseWord :: ms)

/- Kinds that form a declaration with such expressions. -/
inductive Decl.Relaxed : List Kind → Prop where
  | declare
      {ls : List Kind}
      (hEnd : MaySemicolon ls) :
      Decl.Relaxed (.varWord :: .identifier :: ls)
  | declareWith
      {ks ls : List Kind}
      (inner : Expr.Relaxed .expression ks)
      (hEnd : MaySemicolon ls) :
      Decl.Relaxed
        (.varWord :: .identifier :: .equal :: ks ++ ls)
  | statement
      {ks : List Kind}
      (inner : Stmt.Relaxed ks) :
      Decl.Relaxed ks

/- Kinds that form declarations, one after the other. -/
inductive Decl.RelaxedAll : List Kind → Prop where
  | nil :
      Decl.RelaxedAll []
  | cons
      {ks ls : List Kind}
      (first : Decl.Relaxed ks)
      (more : Decl.RelaxedAll ls) :
      Decl.RelaxedAll (ks ++ ls)

end

/- The kinds that join two expressions into one. -/
def Kind.joins
    (k : Kind) : Bool :=
  k == .equal || k.isInfixOperator

namespace Expr

/- Kinds by which an expression may go on. -/
inductive Tail : List Kind → Prop where
  | nil :
      Tail []
  | cons
      {k : Kind} {ks : List Kind}
      (hOp : k.joins = true)
      (next : Relaxed .expression ks) :
      Tail (k :: ks)

/- How an expression goes on after its first kind. -/
inductive Opens : Kind → List Kind → Prop where
  | operator
      {k : Kind} {ks : List Kind}
      (hOp : k.isPrefixOperator = true)
      (inner : Relaxed .expression ks) :
      Opens k ks
  | operand
      {k : Kind} {ks : List Kind}
      (hOperand : k.isLiteral = true ∨ k = .identifier)
      (tail : Tail ks) :
      Opens k ks
  | grouping
      {ks ls : List Kind}
      (inner : Relaxed .expression ks)
      (tail : Tail ls) :
      Opens .leftParen (ks ++ .rightParen :: ls)

end Expr

variable {level : Level} {c : Chain}
variable {ks ls ms : List Kind} {k : Kind}

/- An operator of a chain joins two expressions. -/
theorem Kind.joins_of_holds
    (h : c.holds k = true) :
    k.joins = true := by
  rw [joins, isInfixOperator_of_holds h, Bool.or_true]

------------------------------------------------------------
-- Levels
------------------------------------------------------------

namespace Expr.Relaxed

/- An expression of the loosest chain is an expression. -/
theorem of_disjunction
    (h : Relaxed (.chain .disjunction) ks) :
    Relaxed .expression ks :=
  .expression (.plain h)

/- An expression of any chain is an expression. -/
theorem of_chain
    (h : Relaxed (.chain c) ks) :
    Relaxed .expression ks := by
  have hConjunction :
      Relaxed (.chain .conjunction) ks →
        Relaxed .expression ks :=
    fun h => of_disjunction (.operand h)
  have hEquality :
      Relaxed (.chain .equality) ks →
        Relaxed .expression ks :=
    fun h => hConjunction (.operand h)
  have hComparison :
      Relaxed (.chain .comparison) ks →
        Relaxed .expression ks :=
    fun h => hEquality (.operand h)
  have hTerm :
      Relaxed (.chain .term) ks → Relaxed .expression ks :=
    fun h => hComparison (.operand h)
  cases c with
  | disjunction => exact of_disjunction h
  | conjunction => exact hConjunction h
  | equality => exact hEquality h
  | comparison => exact hComparison h
  | term => exact hTerm h
  | factor => exact hTerm (.operand h)

/- An expression of any level is an expression. -/
theorem toExpression
    (h : Relaxed level ks) :
    Relaxed .expression ks := by
  have hUnary :
      Relaxed .unary ks → Relaxed .expression ks :=
    fun h => of_chain (.operand (c := .factor) h)
  cases level with
  | expression => exact h
  | assignment => exact .expression h
  | chain c => exact of_chain h
  | unary => exact hUnary h
  | primary => exact hUnary (.primary h)

/- What holds of operands and is kept by links. -/
theorem chain_induction
    {Q : List Kind → Prop}
    (operand : ∀ ks, Relaxed c.operand ks → Q ks)
    (link :
      ∀ ks k ls, Q ks → c.holds k = true →
        Relaxed c.operand ls → Q (ks ++ k :: ls))
    (h : Relaxed (.chain c) ks) :
    Q ks := by
  generalize hLevel : Level.chain c = level at h
  induction h with
  | expression inner ih => cases hLevel
  | assign target value ihTarget ihValue => cases hLevel
  | plain inner ih => cases hLevel
  | operand inner ih =>
      cases hLevel
      exact operand _ inner
  | link first hOp second ihFirst ihSecond =>
      cases hLevel
      exact link _ _ _ (ihFirst rfl) hOp second
  | unary hOp inner ih => cases hLevel
  | primary inner ih => cases hLevel
  | literal hLiteral => cases hLevel
  | identifier => cases hLevel
  | grouping inner ih => cases hLevel

------------------------------------------------------------
-- Joining Expressions
------------------------------------------------------------

/- Whether a kind joins the expressions of a level. -/
def Joined
    (level : Level)
    (k : Kind) : Prop :=
  ∀ ks ls,
    Relaxed level ks → Relaxed level ls →
      Relaxed level (ks ++ k :: ls)

/- A chain is joined to another by way of its operands. -/
theorem append_chain
    (hOperand :
      ∀ ls, Relaxed c.operand ls →
        Relaxed (.chain c) (ks ++ k :: ls))
    (h : Relaxed (.chain c) ls) :
    Relaxed (.chain c) (ks ++ k :: ls) := by
  refine h.chain_induction
    (Q := fun ls => Relaxed (.chain c) (ks ++ k :: ls))
    hOperand fun ls l ms hls hOp hms => ?_
  rw [← List.cons_append, ← List.append_assoc]
  exact .link hls hOp hms

/- An operator joins expressions of its own chain. -/
theorem joined_of_holds
    (h : c.holds k = true) :
    Joined (.chain c) k :=
  fun _ _ hFirst hNext =>
    append_chain (fun _ hls => .link hFirst h hls) hNext

/- What joins the operands of a chain joins the chain. -/
theorem joined_of_operand
    (h : Joined c.operand k) :
    Joined (.chain c) k := by
  intro ks ls hFirst hNext
  refine append_chain (fun ls inner => ?_) hNext
  cases hFirst with
  | operand first => exact .operand (h _ _ first inner)
  | link first hOp second =>
      rw [List.append_assoc, List.cons_append]
      exact .link first hOp (h _ _ second inner)

/- Every operator joins expressions of the loosest chain. -/
theorem joined_disjunction
    (h : c.holds k = true) :
    Joined (.chain .disjunction) k := by
  have hOwn := joined_of_holds h
  have hEquality :
      Joined (.chain .equality) k →
        Joined (.chain .disjunction) k :=
    fun h => joined_of_operand
      (joined_of_operand (c := .conjunction) h)
  have hTerm :
      Joined (.chain .term) k →
        Joined (.chain .disjunction) k :=
    fun h => hEquality (joined_of_operand
      (joined_of_operand (c := .comparison) h))
  cases c with
  | disjunction => exact hOwn
  | conjunction => exact joined_of_operand hOwn
  | equality => exact hEquality hOwn
  | comparison => exact hEquality (joined_of_operand hOwn)
  | term => exact hTerm hOwn
  | factor => exact hTerm (joined_of_operand hOwn)

/- An assignment is joined by way of its last value. -/
theorem joined_assignment
    (hLast :
      ∀ ks ls, Relaxed (.chain .disjunction) ks →
        Relaxed .assignment ls →
          Relaxed .assignment (ks ++ k :: ls)) :
    Joined .assignment k := by
  intro ks ls h hNext
  generalize hLevel : Level.assignment = level at h
  induction h with
  | expression inner ih => cases hLevel
  | assign target value ihTarget ihValue =>
      rw [List.append_assoc, List.cons_append]
      exact .assign target (ihValue rfl)
  | plain inner ih => exact hLast _ _ inner hNext
  | operand inner ih => cases hLevel
  | link first hOp second ihFirst ihSecond => cases hLevel
  | unary hOp inner ih => cases hLevel
  | primary inner ih => cases hLevel
  | literal hLiteral => cases hLevel
  | identifier => cases hLevel
  | grouping inner ih => cases hLevel

/- An equality sign joins two expressions. -/
theorem joined_equal :
    Joined .assignment .equal :=
  joined_assignment fun _ _ => .assign

/- An operator between operands joins two expressions. -/
theorem joined_of_isInfixOperator
    (h : k.isInfixOperator = true) :
    Joined .assignment k := by
  rcases List.any_eq_true.mp h with ⟨c, -, hc⟩
  have hChain := joined_disjunction hc
  apply joined_assignment
  intro ks ls hFirst hNext
  cases hNext with
  | assign target value =>
      rw [← List.cons_append, ← List.append_assoc]
      exact .assign (hChain _ _ hFirst target) value
  | plain inner => exact .plain (hChain _ _ hFirst inner)

/- An expression goes on by a tail. -/
theorem append
    (h : Relaxed .expression ks)
    (hTail : Tail ls) :
    Relaxed .expression (ks ++ ls) := by
  cases hTail with
  | nil => rwa [List.append_nil]
  | @cons k ls hOp next =>
      have hJoined : Joined .assignment k := by
        rcases Bool.or_eq_true_iff.mp hOp with hEqual | hInfix
        · rw [eq_of_beq hEqual]
          exact joined_equal
        · exact joined_of_isInfixOperator hInfix
      cases h with
      | expression first =>
          cases next with
          | expression second =>
              exact .expression (hJoined _ _ first second)

/- A prefix operator stands before any expression. -/
theorem cons_of_isPrefixOperator
    (hOp : k.isPrefixOperator = true)
    (h : Relaxed level ks)
    (hLevel : level ≠ .primary) :
    Relaxed level (k :: ks) := by
  induction h with
  | expression inner ih => exact .expression (ih nofun)
  | assign target value ihTarget ihValue =>
      exact .assign (ihTarget nofun) value
  | plain inner ih => exact .plain (ih nofun)
  | @operand _ c inner ih =>
      refine .operand (ih ?_)
      cases c <;> nofun
  | link first hOp second ihFirst ihSecond =>
      exact .link (ihFirst nofun) hOp second
  | unary hInner inner ih =>
      exact .unary hOp (.unary hInner inner)
  | primary inner ih => exact .unary hOp (.primary inner)
  | literal hLiteral => exact absurd rfl hLevel
  | identifier => exact absurd rfl hLevel
  | grouping inner ih => exact absurd rfl hLevel

end Expr.Relaxed

------------------------------------------------------------
-- First Kinds
------------------------------------------------------------

namespace Expr

/- A tail goes on by another one. -/
theorem Tail.append
    (h : Tail ks)
    (hTail : Tail ls) :
    Tail (ks ++ ls) := by
  cases h with
  | nil => exact hTail
  | cons hOp next => exact .cons hOp (next.append hTail)

/- What starts an expression starts a longer one. -/
theorem Opens.append
    (h : Opens k ks)
    (hTail : Tail ls) :
    Opens k (ks ++ ls) := by
  cases h with
  | operator hOp inner =>
      exact .operator hOp (inner.append hTail)
  | operand hOperand tail =>
      exact .operand hOperand (tail.append hTail)
  | grouping inner tail =>
      rw [List.append_assoc, List.cons_append]
      exact .grouping inner (tail.append hTail)

/- An expression starts in one of three ways. -/
theorem Relaxed.opens
    (h : Relaxed level ks) :
    ∃ k ls, ks = k :: ls ∧ Opens k ls := by
  induction h with
  | expression inner ih => exact ih
  | assign target value ihTarget ihValue =>
      rcases ihTarget with ⟨k, ls, rfl, hOpens⟩
      exact ⟨k, _, rfl,
        hOpens.append (.cons rfl value.toExpression)⟩
  | plain inner ih => exact ih
  | operand inner ih => exact ih
  | link first hOp second ihFirst ihSecond =>
      rcases ihFirst with ⟨k, ls, rfl, hOpens⟩
      exact ⟨k, _, rfl, hOpens.append
        (.cons (Kind.joins_of_holds hOp) second.toExpression)⟩
  | unary hOp inner ih =>
      exact ⟨_, _, rfl, .operator hOp inner.toExpression⟩
  | primary inner ih => exact ih
  | literal hLiteral =>
      exact ⟨_, _, rfl, .operand (.inl hLiteral) .nil⟩
  | identifier =>
      exact ⟨_, _, rfl, .operand (.inr rfl) .nil⟩
  | grouping inner ih =>
      exact ⟨_, _, rfl, .grouping inner .nil⟩

/- Expressions are told by how they go on. -/
theorem relaxed_cons :
    Relaxed .expression (k :: ks) ↔ Opens k ks := by
  constructor
  · intro h
    rcases h.opens with ⟨l, ls, hks, hOpens⟩
    cases hks
    exact hOpens
  · intro h
    cases h with
    | operator hOp inner =>
        exact inner.cons_of_isPrefixOperator hOp nofun
    | operand hOperand tail =>
        have hFirst : Relaxed .primary [k] := by
          rcases hOperand with hLiteral | rfl
          · exact .literal hLiteral
          · exact .identifier
        exact hFirst.toExpression.append tail
    | @grouping ks ls inner tail =>
        have hFirst := (Relaxed.grouping inner).toExpression
        have hAll := hFirst.append tail
        rwa [List.append_assoc] at hAll

/- There is no expression without kinds. -/
theorem not_relaxed_nil :
    ¬ Relaxed level [] := by
  intro h
  rcases h.opens with ⟨k, ls, hks, -⟩
  cases hks

end Expr

/- There is no statement without kinds. -/
theorem Stmt.not_relaxed_nil :
    ¬ Stmt.Relaxed [] := by
  intro h
  generalize hks : [] = ks at h
  cases h with
  | expression inner hEnd =>
      rcases inner.opens with ⟨k, ls, rfl, -⟩
      cases hks
  | print inner hEnd => cases hks
  | block body hEnd => cases hks
  | ifThen test first => cases hks
  | ifElse test first second => cases hks

/- There is no declaration without kinds. -/
theorem Decl.not_relaxed_nil :
    ¬ Decl.Relaxed [] := by
  intro h
  cases h with
  | statement inner => exact Stmt.not_relaxed_nil inner

/- Declarations start with one of them. -/
theorem Decl.RelaxedAll.exists_cons
    (h : Decl.RelaxedAll (k :: ks)) :
    ∃ ls ms,
      ks = ls ++ ms ∧ Decl.Relaxed (k :: ls) ∧
        Decl.RelaxedAll ms := by
  generalize hks : k :: ks = ls at h
  cases h with
  | nil => cases hks
  | @cons ls ms first more =>
      cases ls with
      | nil => exact absurd first Decl.not_relaxed_nil
      | cons l ls =>
          cases hks
          exact ⟨ls, ms, rfl, first, more⟩

end Lox
