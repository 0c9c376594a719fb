import Lox.Fault
import Lox.Token

/-
  Syntax trees.

  Expressions, statements and declarations are three types.
  Each of them has an open place, for trees that are not
  complete; complete trees hold none.

  Key definitions include:
    * `Expr`
    * `Stmt`
    * `Decl`
    * `Node`
    * `Node.form`
-/

namespace Lox

------------------------------------------------------------
-- Trees
------------------------------------------------------------

/- Expressions. -/
inductive Expr where
  | literal (token : Token)
  | identifier (name : Token)
  | grouping (inner : Expr)
  | unary (op : Token) (operand : Expr)
  | binary (left : Expr) (op : Token) (right : Expr)
  | logical (left : Expr) (op : Token) (right : Expr)
  | assign (target : Token) (value : Expr)
  | hole
deriving DecidableEq

mutual

/- Statements. -/
inductive Stmt where
  | expression (e : Expr)
  | print (e : Expr)
  | ifThen (condition : Expr) (body : Stmt)
  | ifElse (condition : Expr) (body other : Stmt)
  | block (body : List Decl)
  | hole

/- Declarations. -/
inductive Decl where
  | declare (name : Token) (value : Option Expr)
  | statement (s : Stmt)
  | hole

end

deriving instance BEq for Stmt, Decl

/- A tree of any of the three types. -/
inductive Node where
  | expr (e : Expr)
  | stmt (s : Stmt)
  | decl (d : Decl)

------------------------------------------------------------
-- Forms
------------------------------------------------------------

/- The name of an expression's form. -/
def Expr.form : Expr → String
  | literal _ => "Literal"
  | identifier _ => "Identifier"
  | grouping _ => "Grouping"
  | unary _ _ => "Unary"
  | binary _ _ _ => "Binary"
  | logical _ _ _ => "Logical"
  | assign _ _ => "Assign"
  | hole => Hole.expr.name

/- The name of a statement's form. -/
def Stmt.form : Stmt → String
  | expression _ => "Expression"
  | print _ => "Print"
  | ifThen _ _ => "If"
  | ifElse _ _ _ => "If"
  | block _ => "Block"
  | hole => Hole.stmt.name

/- The name of a declaration's form. -/
def Decl.form : Decl → String
  | declare _ _ => "Declaration"
  | statement _ => "Statement"
  | hole => Hole.decl.name

/- The name of a tree's form. -/
def Node.form : Node → String
  | expr e => e.form
  | stmt s => s.form
  | decl d => d.form

end Lox
