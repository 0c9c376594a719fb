import Lox.Evaluation.Error
import Lox.Token.Error
import Lox.Tree.Parse.Error

/-
  Diagnostics: what a user is told about a source that does
  not run as it should.

  Key definitions include:
    * `Diagnostic`
    * `Diagnostic.format`
    * `Diagnostic.agrees`
-/

namespace Lox

/- An error of any of the three stages. -/
inductive Diagnostic where
  | lexical (e : LexError)
  | structural (e : ParseError)
  | runtime (e : RuntimeError)
deriving DecidableEq

namespace Diagnostic

/- The stage that an error belongs to. -/
def category : Diagnostic → String
  | lexical _ => "Lex error"
  | structural _ => "Parse error"
  | runtime _ => "Runtime error"

/- The line of an error. -/
def line : Diagnostic → Int
  | lexical e => e.line
  | structural e => e.line
  | runtime e => e.line

/- The wording of an error. -/
def message : Diagnostic → String
  | lexical e => e.message
  | structural e => e.message
  | runtime e => e.message

/- An error as one line of text, after some indentation. -/
def format
    (d : Diagnostic)
    (indent : String) : String :=
  indent ++ "[line " ++ toString d.line ++ "] " ++
    d.category ++ ": " ++ d.message

/- An error as one line of text. -/
def text
    (d : Diagnostic) : String :=
  d.format ""

------------------------------------------------------------
-- Agreement
------------------------------------------------------------

/- Whether two errors are of the same sort. -/
def sameSort : Diagnostic → Diagnostic → Bool
  | lexical a, lexical b =>
      match a.cause, b.cause with
      | .unexpectedCharacter _, .unexpectedCharacter _ => true
      | .unterminatedString, .unterminatedString => true
      | .invalidNumber _, .invalidNumber _ => true
      | _, _ => false
  | structural a, structural b =>
      match a.cause, b.cause with
      | .unexpectedToken _ _, .unexpectedToken _ _ => true
      | .wrongToken _ _, .wrongToken _ _ => true
      | .endOfInput, .endOfInput => true
      | .invalidTarget _, .invalidTarget _ => true
      | .nestingTooDeep _, .nestingTooDeep _ => true
      | _, _ => false
  | runtime a, runtime b =>
      match a.cause, b.cause with
      | .wrongType _ _ _, .wrongType _ _ _ => true
      | .incompatibleTypes _ _ _,
        .incompatibleTypes _ _ _ => true
      | .inoperableTypes _ _ _ _ _,
        .inoperableTypes _ _ _ _ _ => true
      | .undefinedVariable _, .undefinedVariable _ => true
      | .divisionByZero _, .divisionByZero _ => true
      | .nestingTooDeep _, .nestingTooDeep _ => true
      | _, _ => false
  | _, _ => false

/-
  Errors agree if they report the same: the same sort of
  error, with the same wording, on the same line.
-/
def agrees
    (a b : Diagnostic) : Bool :=
  a.sameSort b && a.line == b.line && a.message == b.message

end Diagnostic

end Lox
