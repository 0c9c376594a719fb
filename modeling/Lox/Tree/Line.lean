import Lox.Tree

/-
  The lines of trees.  A tree without a token of its own is
  on the line of its first part that has one.

  Key definitions include:
    * `Expr.line`
    * `Stmt.line`
    * `Decl.line`
    * `Node.line`
-/

namespace Lox

/- The line of an expression. -/
def Expr.line : Expr → Except Fault Int
  | literal t => .ok t.line
  | identifier t => .ok t.line
  | grouping e => e.line
  | unary op _ => .ok op.line
  | binary left _ _ => left.line
  | logical left _ _ => left.line
  | assign target _ => .ok target.line
  | hole => .error (.unplaced .expr)

mutual

/- The line of a statement; an empty block has none. -/
def Stmt.line : Stmt → Except Fault (Option Int)
  | .expression e => e.line.map some
  | .print e => e.line.map some
  | .ifThen c _ => c.line.map some
  | .ifElse c _ _ => c.line.map some
  | .block [] => .ok none
  | .block (d :: _) => d.line
  | .hole => .error (.unplaced .stmt)

/- The line of a declaration. -/
def Decl.line : Decl → Except Fault (Option Int)
  | .declare name _ => .ok (some name.line)
  | .statement s => s.line
  | .hole => .error (.unplaced .decl)

end

/- The line of a tree. -/
def Node.line : Node → Except Fault (Option Int)
  | expr e => e.line.map some
  | stmt s => s.line
  | decl d => d.line

end Lox
