/-
  Faults: the ways in which an operation is misused, apart
  from what a program in the language can do wrong.

  Key definitions include:
    * `Hole`
    * `Fault`
    * `Fault.message`
-/

namespace Lox

------------------------------------------------------------
-- Holes
------------------------------------------------------------

/- The sorts of places in a tree that may be left open. -/
inductive Hole where
  | expr
  | stmt
  | decl
deriving DecidableEq, Repr

/- The name of an open place. -/
def Hole.name : Hole → String
  | expr => "Expr"
  | stmt => "Stmt"
  | decl => "Decl"

------------------------------------------------------------
-- Faults
------------------------------------------------------------

/-
  What was misused: a tree with an open place was printed,
  located or run, a tree that is no declaration or holds an
  operator unknown to evaluation was run, the global scope
  was closed, a name was looked up that is not bound, an
  integer was used where values are, or an integer exceeds
  every double.
-/
inductive Fault where
  | unprintable (h : Hole)
  | unplaced (h : Hole)
  | notExpression
  | notStatement
  | notDeclaration (form : String)
  | unaryOperator (lexeme : String)
  | binaryOperator (lexeme : String)
  | globalScope
  | unbound (name : String)
  | notValue (n : Int)
  | integerTooLarge
deriving DecidableEq

/- The wording of a fault. -/
def Fault.message : Fault → String
  | unprintable h => "Unknown AST node: " ++ h.name
  | unplaced h => "Unknown node: " ++ h.name
  | notExpression =>
      "Unknown expression node: " ++ Hole.expr.name
  | notStatement =>
      "Unknown statement node: " ++ Hole.stmt.name
  | notDeclaration form =>
      "Unknown declaration node: " ++ form
  | unaryOperator lexeme =>
      "Unknown unary operator: " ++ lexeme
  | binaryOperator lexeme =>
      "Unknown binary operator: " ++ lexeme
  | globalScope => "cannot pop the global scope"
  | unbound name => name
  | notValue n => "not a Lox value: " ++ toString n
  | integerTooLarge => "int too large to convert to float"

end Lox
