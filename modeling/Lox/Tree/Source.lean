import Lox.Diagnostic
import Lox.Token.Scan
import Lox.Tree.Parse.Program

/-
  From source texts to programs, and back to source texts.

  Key definitions include:
    * `Decl.ofSource`
    * `Canonical`
    * `Canonical.ofSource`
    * `sameScanned`
    * `sameRead`
    * `sameList`
-/

namespace Lox

------------------------------------------------------------
-- Programs of Sources
------------------------------------------------------------

/-
  The program of a source text, or the errors of its
  lexemes.  Blanks and comments are passed over.
-/
def Decl.ofSource
    (limits : Limits)
    (source : String) :
    Except (List LexError) (List (Except ParseError Decl)) :=
  let items := Token.scan source
  match Token.errorsOf items with
  | [] =>
      .ok
        (Decl.programWithin limits
          (Token.significant (Token.tokensOf items)))
  | errors => .error errors

------------------------------------------------------------
-- Canonical Text
------------------------------------------------------------

/-
  The canonical text of a source: the text of what could be
  read, and the errors of what could not.
-/
structure Canonical where
  text : String
  errors : List ParseError

/- The canonical text of a source. -/
def Canonical.ofSource
    (source : String) : Except (List LexError) Canonical :=
  (Decl.ofSource .standard source).map
    (fun items =>
      ⟨String.ofList
          (Decl.sequence (Decl.declarationsOf items)),
        Decl.errorsOf items⟩)

------------------------------------------------------------
-- Comparisons
------------------------------------------------------------

/- Whether two scanned items report the same. -/
def sameScanned : (a b : Except LexError Token) → Bool
  | .ok s, .ok t => s == t
  | .error d, .error e =>
      (Diagnostic.lexical d).agrees (.lexical e)
  | _, _ => false

/- Whether two items of programs report the same. -/
def sameRead : (a b : Except ParseError Decl) → Bool
  | .ok c, .ok d => c == d
  | .error d, .error e =>
      (Diagnostic.structural d).agrees (.structural e)
  | _, _ => false

/- Whether two lists agree item by item. -/
def sameList
    {α : Type}
    (same : α → α → Bool)
    (xs ys : List α) : Bool :=
  xs.length == ys.length &&
    (xs.zipWith same ys).all (fun b => b)

end Lox
