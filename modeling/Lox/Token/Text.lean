import Lox.Double.Text
import Lox.Text.Quoted
import Lox.Token

/-
  The listing of tokens.

  Key definitions include:
    * `Literal.listed?`
    * `Token.listed`
-/

namespace Lox

/- A literal as a listing shows it, if there is one. -/
def Literal.listed? : Literal → Option String
  | .absent => none
  | .bool true => some "True"
  | .bool false => some "False"
  | .text s => some (Text.quoted s)
  | .integer n => some (toString n)
  | .decimal x => some (Double.text x)

/-
  A token as a listing shows it: its kind, its literal or
  else its lexeme, and its line.
-/
def Token.listed
    (t : Token) : String :=
  let content :=
    t.literal.listed?.getD (Text.quoted t.lexeme)
  t.kind.name ++ "(" ++ content ++ ")@" ++ toString t.line

end Lox
