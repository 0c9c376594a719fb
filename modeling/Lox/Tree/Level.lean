import Lox.Tree

/-
  The levels of the expression grammar.

  An expression is an assignment; below that stand six
  levels of binary operators, from the loosest to the
  tightest, then prefix operators, then the expressions that
  need no operator.  Each binary level is a chain: operands
  of the next tighter level with operators between them,
  grouped from the left.

  Key definitions include:
    * `Chain`
    * `Chain.holds`
    * `Chain.join`
    * `Level`
    * `Chain.operand`
    * `Level.rank`
-/

namespace Lox

------------------------------------------------------------
-- Chains
------------------------------------------------------------

/- The levels of binary operators, the loosest first. -/
inductive Chain where
  | disjunction
  | conjunction
  | equality
  | comparison
  | term
  | factor
deriving DecidableEq, Repr

namespace Chain

/- The operators of a chain. -/
def operators : Chain → List Kind
  | disjunction => [.orWord]
  | conjunction => [.andWord]
  | equality => [.equalEqual, .bangEqual]
  | comparison =>
      [.greater, .greaterEqual, .less, .lessEqual]
  | term => [.plus, .minus]
  | factor => [.star, .slash]

/- Whether tokens of a kind are operators of a chain. -/
def holds
    (c : Chain)
    (k : Kind) : Bool :=
  c.operators.contains k

/-
  Join two operands.  The operators that may leave their
  right operand unevaluated have a form of their own.
-/
def join : Chain → Expr → Token → Expr → Expr
  | disjunction => .logical
  | conjunction => .logical
  | equality => .binary
  | comparison => .binary
  | term => .binary
  | factor => .binary

end Chain

------------------------------------------------------------
-- Levels
------------------------------------------------------------

/- The levels of the expression grammar. -/
inductive Level where
  | expression
  | assignment
  | chain (c : Chain)
  | unary
  | primary
deriving DecidableEq, Repr

/- The level of a chain's operands. -/
def Chain.operand : Chain → Level
  | disjunction => .chain .conjunction
  | conjunction => .chain .equality
  | equality => .chain .comparison
  | comparison => .chain .term
  | term => .chain .factor
  | factor => .unary

namespace Level

/-
  A number that falls on the way from an assignment down to
  a primary, and on to an expression in parentheses.
-/
def rank : Level → Nat
  | expression => 0
  | primary => 1
  | unary => 2
  | chain .factor => 3
  | chain .term => 4
  | chain .comparison => 5
  | chain .equality => 6
  | chain .conjunction => 7
  | chain .disjunction => 8
  | assignment => 9

/- The operands of a chain are of lower rank. -/
theorem rank_operand_lt
    (c : Chain) :
    c.operand.rank < (chain c).rank := by
  cases c <;> decide

/- The operands of a chain rank below assignments. -/
theorem rank_operand_le
    (c : Chain) :
    c.operand.rank ≤ 8 := by
  cases c <;> decide

/- A chain is of positive rank. -/
theorem rank_chain_pos
    (c : Chain) :
    0 < (chain c).rank := by
  cases c <;> decide

end Level

/- The kinds of the operators that stand before operands. -/
def Kind.isPrefixOperator : Kind → Bool
  | bang => true
  | minus => true
  | _ => false

end Lox
