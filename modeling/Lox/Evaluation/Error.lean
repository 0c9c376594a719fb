import Lox.Value

/-
  The errors of running programs.

  Key definitions include:
    * `RuntimeError.Cause`
    * `RuntimeError`
    * `RuntimeError.message`
    * `Stop`
-/

namespace Lox

------------------------------------------------------------
-- Causes
------------------------------------------------------------

/-
  What a program did wrong.  Expressions are given by their
  text.
-/
inductive RuntimeError.Cause where
  | wrongType (expression : String) (expected actual : Ty)
  | incompatibleTypes (expression : String) (left right : Ty)
  | inoperableTypes (operator expression : String)
      (supported : List Ty) (left right : Ty)
  | undefinedVariable (name : String)
  | divisionByZero (expression : String)
  | nestingTooDeep (limit : Int)
deriving DecidableEq

/- A program's error, and the line it belongs to. -/
structure RuntimeError where
  line : Int
  cause : RuntimeError.Cause
deriving DecidableEq

namespace RuntimeError

/- The wording of an error. -/
def message
    (e : RuntimeError) : String :=
  match e.cause with
  | .wrongType expression expected actual =>
      "Expected " ++ expected.name ++ " in '" ++
        expression ++ "', found " ++ actual.name ++ "."
  | .incompatibleTypes expression left right =>
      "Incompatible types " ++ left.name ++ " and " ++
        right.name ++ " in '" ++ expression ++ "'."
  | .inoperableTypes operator expression supported left right =>
      "Operator '" ++ operator ++ "' expects " ++
        " or ".intercalate (supported.map Ty.name) ++
        " operands, found " ++ left.name ++ " and " ++
        right.name ++ " in '" ++ expression ++ "'."
  | .undefinedVariable name =>
      "Undefined variable '" ++ name ++ "'."
  | .divisionByZero expression =>
      "Division by zero in '" ++ expression ++ "'."
  | .nestingTooDeep limit =>
      "Evaluation nested deeper than " ++ toString limit ++
        " levels."

end RuntimeError

------------------------------------------------------------
-- Endings
------------------------------------------------------------

/- Why a run ends early: an error of the program, or a fault. -/
inductive Stop where
  | error (e : RuntimeError)
  | fault (f : Fault)
deriving DecidableEq

end Lox
