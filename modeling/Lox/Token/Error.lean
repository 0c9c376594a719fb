import Lox.Text.Quoted

/-
  The errors of single lexemes.

  Key definitions include:
    * `LexError.Cause`
    * `LexError`
    * `LexError.message`
-/

namespace Lox

/- What is wrong with a lexeme. -/
inductive LexError.Cause where
  | unexpectedCharacter (c : Char)
  | unterminatedString
  | invalidNumber (lexeme : String)
deriving DecidableEq

/- A lexeme that is no token, and the line it starts on. -/
structure LexError where
  line : Int
  cause : LexError.Cause
deriving DecidableEq

namespace LexError

/- The wording of an error. -/
def message
    (e : LexError) : String :=
  match e.cause with
  | .unexpectedCharacter c =>
      "Unexpected character " ++
        Text.quoted (String.ofList [c]) ++ "."
  | .unterminatedString => "Unterminated string literal."
  | .invalidNumber lexeme =>
      "Invalid number literal " ++ Text.quoted lexeme ++ "."

end LexError

end Lox
