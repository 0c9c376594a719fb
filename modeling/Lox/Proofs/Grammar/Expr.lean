import Lox.Tree.Level

/-
  The grammar of expressions, as a relation between token
  sequences and trees.

  The relation keeps the limits of the reader as indices:
  `depth` levels of nesting and `groups` parentheses suffice
  for the tree.  A chain of operators uses one more level
  for every further operator; its first operand uses none of
  them, although it ends up below all of the operators.

  Key definitions include:
    * `Expr.links`
    * `Expr.Derives`
    * `Kind.startsExpr`
    * `Kind.inExpr`

  Key theorems include:
    * `Expr.Derives.links_eq_zero`
    * `Expr.Derives.of_identifier`
    * `Expr.Derives.eq_cons`
    * `Expr.Derives.inExpr`
-/

namespace Lox

------------------------------------------------------------
-- Derivations
------------------------------------------------------------

namespace Expr

/- How many operators of a chain an expression joins. -/
def links
    (c : Chain) : Expr → Nat
  | binary left op _ =>
      if c.holds op.kind then left.links c + 1 else 0
  | logical left op _ =>
      if c.holds op.kind then left.links c + 1 else 0
  | _ => 0

/-
  Tokens that form an expression of a level, within some
  levels of nesting and some parentheses.
-/
inductive Derives :
    Level → Nat → Nat → List Token → Expr → Prop where
  | expression
      {depth groups : Nat} {ts : List Token} {e : Expr}
      (inner : Derives .assignment depth groups ts e) :
      Derives .expression (depth + 1) groups ts e
  | assign
      {depth groups : Nat} {ts : List Token}
      {name equals : Token} {value : Expr}
      (hName : name.kind = .identifier)
      (hEquals : equals.kind = .equal)
      (inner : Derives .assignment depth groups ts value) :
      Derives .assignment (depth + 1) groups
        (name :: equals :: ts) (.assign name value)
  | plain
      {depth groups : Nat} {ts : List Token} {e : Expr}
      (inner :
        Derives (.chain .disjunction) depth groups ts e) :
      Derives .assignment depth groups ts e
  | operand
      {depth groups : Nat} {ts : List Token} {e : Expr}
      {c : Chain}
      (inner : Derives c.operand depth groups ts e) :
      Derives (.chain c) depth groups ts e
  | link
      {depth below groups : Nat} {ts us : List Token}
      {c : Chain} {op : Token} {left right : Expr}
      (first : Derives (.chain c) depth groups ts left)
      (hOp : c.holds op.kind = true)
      (hDepth : below + left.links c + 1 = depth)
      (second : Derives c.operand below groups us right) :
      Derives (.chain c) depth groups
        (ts ++ op :: us) (c.join left op right)
  | unary
      {depth groups : Nat} {ts : List Token} {e : Expr}
      {op : Token}
      (hOp : op.kind.isPrefixOperator = true)
      (inner : Derives .unary depth groups ts e) :
      Derives .unary (depth + 1) groups
        (op :: ts) (.unary op e)
  | primary
      {depth groups : Nat} {ts : List Token} {e : Expr}
      (inner : Derives .primary depth groups ts e) :
      Derives .unary depth groups ts e
  | literal
      {depth groups : Nat} {t : Token}
      (hLiteral : t.kind.isLiteral = true) :
      Derives .primary depth groups [t] (.literal t)
  | identifier
      {depth groups : Nat} {t : Token}
      (hName : t.kind = .identifier) :
      Derives .primary depth groups [t] (.identifier t)
  | grouping
      {depth groups : Nat} {ts : List Token} {e : Expr}
      {opening closing : Token}
      (hOpening : opening.kind = .leftParen)
      (inner : Derives .expression depth groups ts e)
      (hClosing : closing.kind = .rightParen) :
      Derives .primary depth (groups + 1)
        (opening :: ts ++ [closing]) (.grouping e)

end Expr

variable {depth groups : Nat}
variable {c : Chain} {level : Level}
variable {ts : List Token}
variable {e left right : Expr}

------------------------------------------------------------
-- Operators of Chains
------------------------------------------------------------

namespace Chain

/- No operator belongs to two chains. -/
theorem holds_unique
    {c d : Chain}
    {k : Kind}
    (hc : c.holds k = true)
    (hd : d.holds k = true) :
    c = d := by
  have hOnly :
      ∀ k ∈ c.operators, d.holds k = true → c = d := by
    cases c <;> cases d <;> decide
  exact hOnly k (by simpa [holds] using hc) hd

/- The operands of a chain are no whole expressions. -/
theorem operand_ne_expression :
    c.operand ≠ .expression := by
  cases c <;> simp [operand]

/- A join counts if its operator belongs to the chain. -/
theorem links_join
    (d : Chain)
    (op : Token) :
    (d.join left op right).links c =
      if c.holds op.kind then left.links c + 1 else 0 := by
  cases d <;> rfl

/- A join is never a bare name. -/
theorem join_ne_identifier
    (op name : Token) :
    c.join left op right ≠ .identifier name := by
  cases c <;> simp [join]

end Chain

------------------------------------------------------------
-- Shapes of Derived Trees
------------------------------------------------------------

namespace Expr.Derives

/- An operand of a chain joins no operators of that chain. -/
theorem links_eq_zero
    (h : Derives level depth groups ts e)
    (hLevel : level ≠ .expression)
    (hRank : level.rank < (Level.chain c).rank) :
    e.links c = 0 := by
  induction h with
  | expression inner ih => exact absurd rfl hLevel
  | assign hName hEquals inner ih => rfl
  | plain inner ih =>
      cases c <;> simp [Level.rank] at hRank
  | @operand _ _ _ _ d inner ih =>
      apply ih Chain.operand_ne_expression
      have := Level.rank_operand_lt d
      omega
  | @link _ _ _ _ _ d op _ _ first hOp hDepth second =>
      rw [Chain.links_join]
      split
      · rename_i hc
        rw [Chain.holds_unique hc hOp] at hRank
        omega
      · rfl
  | unary hOp inner ih => rfl
  | primary inner ih =>
      apply ih (by simp)
      simp only [Level.rank] at hRank ⊢
      omega
  | literal hLiteral => rfl
  | identifier hName => rfl
  | grouping hOpening inner hClosing ih => rfl

/- A name is derived from one token only. -/
theorem of_identifier
    {name : Token}
    (h : Derives level depth groups ts (.identifier name)) :
    ts = [name] ∧ name.kind = .identifier := by
  generalize he : Expr.identifier name = e at h
  induction h with
  | expression inner ih => exact ih he
  | assign hName hEquals inner ih => cases he
  | plain inner ih => exact ih he
  | operand inner ih => exact ih he
  | link first hOp hDepth second =>
      exact absurd he.symm (Chain.join_ne_identifier _ _)
  | unary hOp inner ih => cases he
  | primary inner ih => exact ih he
  | literal hLiteral => cases he
  | identifier hName =>
      cases he
      exact ⟨rfl, hName⟩
  | grouping hOpening inner hClosing ih => cases he

end Expr.Derives

------------------------------------------------------------
-- First Tokens
------------------------------------------------------------

/- The kinds of tokens that an expression can start with. -/
def Kind.startsExpr
    (k : Kind) : Bool :=
  k.isLiteral || k == .identifier || k == .leftParen ||
    k.isPrefixOperator

/- An expression has a first token, of a fitting kind. -/
theorem Expr.Derives.eq_cons
    (h : Derives level depth groups ts e) :
    ∃ t us, ts = t :: us ∧ t.kind.startsExpr = true := by
  induction h with
  | expression inner ih => exact ih
  | assign hName hEquals inner ih =>
      exact ⟨_, _, rfl, by simp [Kind.startsExpr, hName]⟩
  | plain inner ih => exact ih
  | operand inner ih => exact ih
  | link first hOp hDepth second ih =>
      rcases ih with ⟨t, us, rfl, ht⟩
      exact ⟨t, _, rfl, ht⟩
  | unary hOp inner ih =>
      exact ⟨_, _, rfl, by simp [Kind.startsExpr, hOp]⟩
  | primary inner ih => exact ih
  | literal hLiteral =>
      exact ⟨_, _, rfl, by simp [Kind.startsExpr, hLiteral]⟩
  | identifier hName =>
      exact ⟨_, _, rfl, by simp [Kind.startsExpr, hName]⟩
  | grouping hOpening inner hClosing ih =>
      exact ⟨_, _, rfl, by simp [Kind.startsExpr, hOpening]⟩

/- A primary does not start with a prefix operator. -/
theorem Expr.Derives.eq_cons_primary
    (h : Derives .primary depth groups ts e) :
    ∃ t us, ts = t :: us ∧
      ¬ t.kind.isPrefixOperator = true := by
  cases h with
  | @literal _ _ t hLiteral =>
      refine ⟨_, _, rfl, ?_⟩
      cases h : t.kind <;>
        simp_all [Kind.isLiteral, Kind.isPrefixOperator]
  | identifier hName =>
      exact ⟨_, _, rfl, by simp [hName, Kind.isPrefixOperator]⟩
  | grouping hOpening inner hClosing =>
      exact ⟨_, _, rfl,
        by simp [hOpening, Kind.isPrefixOperator]⟩

------------------------------------------------------------
-- Tokens of Expressions
------------------------------------------------------------

/- The kinds of the operators between operands. -/
def Kind.isInfixOperator
    (k : Kind) : Bool :=
  [Chain.disjunction, .conjunction, .equality, .comparison,
    .term, .factor].any fun c => c.holds k

/- The kinds of tokens that stand in expressions. -/
def Kind.inExpr
    (k : Kind) : Bool :=
  k.startsExpr || k.isInfixOperator || k == .equal ||
    k == .rightParen

namespace Kind

/- Operators of chains stand between operands. -/
theorem isInfixOperator_of_holds
    {k : Kind}
    (h : c.holds k = true) :
    k.isInfixOperator = true := by
  rw [isInfixOperator, List.any_eq_true]
  exact ⟨c, by cases c <;> decide, h⟩

/- Operators of chains stand in expressions. -/
theorem inExpr_of_holds
    {k : Kind}
    (h : c.holds k = true) :
    k.inExpr = true := by
  simp [inExpr, isInfixOperator_of_holds h]

/- Prefix operators stand in expressions. -/
theorem inExpr_of_isPrefixOperator
    {k : Kind}
    (h : k.isPrefixOperator = true) :
    k.inExpr = true := by
  simp [inExpr, startsExpr, h]

/- Literals stand in expressions. -/
theorem inExpr_of_isLiteral
    {k : Kind}
    (h : k.isLiteral = true) :
    k.inExpr = true := by
  simp [inExpr, startsExpr, h]

/- Kinds that do not stand in expressions are others. -/
theorem ne_of_inExpr
    {k other : Kind}
    (h : k.inExpr = true)
    (hOther : other.inExpr = false) :
    ¬ k = other := by
  rintro rfl
  rw [h] at hOther
  cases hOther

end Kind

/- The tokens that an expression is derived from. -/
theorem Expr.Derives.inExpr
    (h : Derives level depth groups ts e) :
    ∀ t ∈ ts, t.kind.inExpr = true := by
  induction h with
  | expression inner ih => exact ih
  | assign hName hEquals inner ih =>
      rw [List.forall_mem_cons, List.forall_mem_cons, hName,
        hEquals]
      exact ⟨rfl, rfl, ih⟩
  | plain inner ih => exact ih
  | operand inner ih => exact ih
  | link first hOp hDepth second ihFirst ihSecond =>
      rw [List.forall_mem_append, List.forall_mem_cons]
      exact ⟨ihFirst, Kind.inExpr_of_holds hOp, ihSecond⟩
  | unary hOp inner ih =>
      rw [List.forall_mem_cons]
      exact ⟨Kind.inExpr_of_isPrefixOperator hOp, ih⟩
  | primary inner ih => exact ih
  | literal hLiteral =>
      rw [List.forall_mem_singleton]
      exact Kind.inExpr_of_isLiteral hLiteral
  | identifier hName =>
      rw [List.forall_mem_singleton, hName]
      rfl
  | grouping hOpening inner hClosing ih =>
      rw [List.cons_append, List.forall_mem_cons,
        List.forall_mem_append, List.forall_mem_singleton,
        hOpening, hClosing]
      exact ⟨rfl, ih, rfl⟩

end Lox
