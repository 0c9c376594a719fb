import Lox.Evaluation.Error
import Lox.Tree.Text

/-
  The operators on values.

  An operator is applied for an expression, whose text is
  part of the error if the operands do not fit.

  Key definitions include:
    * `Expr.blame`
    * `Expr.applyUnary`
    * `Expr.applyEquality`
    * `Expr.applyOrder`
    * `Expr.applyBinary`
-/

namespace Lox

namespace Expr

------------------------------------------------------------
-- Errors
------------------------------------------------------------

/- Stop with an error that shows the text of `e`. -/
def blame
    {α : Type}
    (e : Expr)
    (line : Int)
    (cause : String → RuntimeError.Cause) : Except Stop α :=
  match e.text with
  | .ok s => .error (.error ⟨line, cause s⟩)
  | .error f => .error (.fault f)

/-
  Stop because of two operands.  If one of them has a type
  that the operator supports, the other does not fit to it.
-/
def blameOperands
    {α : Type}
    (e : Expr)
    (op : Token)
    (supported : List Ty)
    (left right : Ty) : Except Stop α :=
  if left ∈ supported then
    e.blame op.line (.incompatibleTypes · left right)
  else if right ∈ supported then
    e.blame op.line (.incompatibleTypes · right left)
  else
    e.blame op.line
      (.inoperableTypes op.lexeme · supported left right)

------------------------------------------------------------
-- One Operand
------------------------------------------------------------

/- Apply an operator to one operand. -/
def applyUnary
    (e : Expr)
    (op : Token)
    (v : Value) : Except Stop Value :=
  match op.kind with
  | .minus =>
      match v with
      | .number x => .ok (.number (-x))
      | _ => e.blame op.line (.wrongType · .number v.ty)
  | .bang =>
      match v with
      | .bool b => .ok (.bool !b)
      | _ => e.blame op.line (.wrongType · .bool v.ty)
  | _ => .error (.fault (.unaryOperator op.lexeme))

------------------------------------------------------------
-- Two Operands
------------------------------------------------------------

/-
  Whether two values are equal.  Nothing can be compared
  with everything; other values only with their own type.
-/
def applyEquality
    (e : Expr)
    (op : Token)
    (left right : Value) : Except Stop Bool :=
  if left ≠ .nil ∧ right ≠ .nil ∧ left.ty ≠ right.ty then
    e.blame op.line
      (.incompatibleTypes · left.ty right.ty)
  else .ok (left.equals right)

/- Whether two members of an order are as an operator says. -/
def isOrdered
    {α : Type}
    [LT α] [LE α] [DecidableLT α] [DecidableLE α]
    (k : Kind)
    (x y : α) : Bool :=
  match k with
  | .greater => decide (y < x)
  | .greaterEqual => decide (y ≤ x)
  | .less => decide (x < y)
  | _ => decide (x ≤ y)

/-
  Whether two values are in order: numbers by size, texts by
  the code points of their first difference.
-/
def applyOrder
    (e : Expr)
    (op : Token)
    (left right : Value) : Except Stop Bool :=
  match left, right with
  | .number x, .number y => .ok (isOrdered op.kind x y)
  | .text s, .text t => .ok (isOrdered op.kind s t)
  | _, _ =>
      if left = .nil ∨ right = .nil ∨ left.ty ≠ right.ty then
        e.blame op.line
          (.incompatibleTypes · left.ty right.ty)
      else
        e.blame op.line
          (.inoperableTypes op.lexeme · [.number, .string]
            left.ty right.ty)

/- Apply an operator to two operands. -/
def applyBinary
    (e : Expr)
    (op : Token)
    (left right : Value) : Except Stop Value :=
  match op.kind with
  | .equalEqual =>
      (e.applyEquality op left right).map .bool
  | .bangEqual =>
      (e.applyEquality op left right).map
        (fun b => .bool !b)
  | .greater => (e.applyOrder op left right).map .bool
  | .greaterEqual => (e.applyOrder op left right).map .bool
  | .less => (e.applyOrder op left right).map .bool
  | .lessEqual => (e.applyOrder op left right).map .bool
  | .plus =>
      match left, right with
      | .number x, .number y => .ok (.number (x + y))
      | .text s, .text t => .ok (.text (s ++ t))
      | _, _ =>
          e.blameOperands op [.number, .string]
            left.ty right.ty
  | .minus =>
      match left, right with
      | .number x, .number y => .ok (.number (x - y))
      | _, _ =>
          e.blameOperands op [.number] left.ty right.ty
  | .star =>
      match left, right with
      | .number x, .number y => .ok (.number (x * y))
      | _, _ =>
          e.blameOperands op [.number] left.ty right.ty
  | .slash =>
      match left, right with
      | .number x, .number y =>
          if y == 0 then e.blame op.line .divisionByZero
          else .ok (.number (x / y))
      | _, _ =>
          e.blameOperands op [.number] left.ty right.ty
  | _ => .error (.fault (.binaryOperator op.lexeme))

end Expr

end Lox
