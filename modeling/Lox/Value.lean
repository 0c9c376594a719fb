import Lox.Double.Text
import Lox.Fault
import Lox.Token

/-
  The values of running programs.

  Key definitions include:
    * `Ty`
    * `Value`
    * `Value.ty`
    * `Value.equals`
    * `Value.render`
    * `Literal.value`
    * `Literal.asValue`
-/

namespace Lox

------------------------------------------------------------
-- Types
------------------------------------------------------------

/- The types of values. -/
inductive Ty where
  | nil
  | number
  | bool
  | string
deriving DecidableEq, Repr

/- The name of a type. -/
def Ty.name : Ty → String
  | nil => "nil"
  | number => "number"
  | bool => "bool"
  | string => "string"

------------------------------------------------------------
-- Values
------------------------------------------------------------

/- A value: nothing, a truth value, a number or a text. -/
inductive Value where
  | nil
  | bool (b : Bool)
  | number (x : Float)
  | text (s : String)
deriving DecidableEq

namespace Value

/- The type of a value. -/
def ty : Value → Ty
  | nil => .nil
  | bool _ => .bool
  | number _ => .number
  | text _ => .string

/-
  Equality as programs see it: values of different types
  differ, and numbers are compared as numbers, so that a
  NaN differs from itself and the zeros are equal.
-/
def equals : Value → Value → Bool
  | nil, nil => true
  | bool a, bool b => a == b
  | number x, number y => x == y
  | text s, text t => s == t
  | _, _ => false

/-
  The text of a number: whole numbers are written out in
  full and without a point, negative zero without a sign.
-/
def numberText
    (x : Float) : String :=
  match Double.wholePart? x with
  | some n =>
      if Double.isNegative x ∧ n ≠ 0 then
        "-" ++ toString n
      else toString n
  | none => if x.isNaN then "NaN" else Double.text x

/- The text of a value, as printing shows it. -/
def render : Value → String
  | nil => "nil"
  | bool b => if b then "true" else "false"
  | number x => numberText x
  | text s => s

end Value

------------------------------------------------------------
-- Literals as Values
------------------------------------------------------------

namespace Literal

/-
  The value that a literal stands for.  An integer stands
  for the double nearest to it.
-/
def value : Literal → Except Fault Value
  | absent => .ok .nil
  | bool b => .ok (.bool b)
  | text s => .ok (.text s)
  | decimal x => .ok (.number x)
  | integer n =>
      match Double.ofInt? n with
      | some x => .ok (.number x)
      | none => .error .integerTooLarge

/-
  The value that a literal is already.  An integer is not
  a value as long as it has not become a double.
-/
def asValue : Literal → Except Fault Value
  | absent => .ok .nil
  | bool b => .ok (.bool b)
  | text s => .ok (.text s)
  | decimal x => .ok (.number x)
  | integer n => .error (.notValue n)

end Literal

end Lox
