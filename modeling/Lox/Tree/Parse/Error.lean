import Lox.Text.Quoted

/-
  The errors of token sequences that are no program.

  Key definitions include:
    * `ParseError.Cause`
    * `ParseError`
    * `ParseError.message`
-/

namespace Lox

/- What is wrong with a token sequence. -/
inductive ParseError.Cause where
  | unexpectedToken (found expected : String)
  | wrongToken (found expected : String)
  | endOfInput
  | invalidTarget (target : String)
  | nestingTooDeep (limit : Int)
deriving DecidableEq

/- An error, and the line of the token that shows it. -/
structure ParseError where
  line : Int
  cause : ParseError.Cause
deriving DecidableEq

namespace ParseError

/- The wording of an error. -/
def message
    (e : ParseError) : String :=
  match e.cause with
  | .unexpectedToken found expected =>
      "Unexpected token " ++ Text.quoted found ++
        ", expected " ++ expected ++ "."
  | .wrongToken found expected =>
      "Expected " ++ Text.quoted expected ++ " but found " ++
        Text.quoted found ++ "."
  | .endOfInput => "Unexpected end of input."
  | .invalidTarget target =>
      "Invalid assignment target '" ++ target ++ "'."
  | .nestingTooDeep limit =>
      "Nesting deeper than " ++ toString limit ++ " levels."

end ParseError

end Lox
