import Lox.Token
import Lox.Tree.Parse.Error

/-
  Attempts at reading a tree off a token sequence.

  An attempt that succeeds leaves the tokens after the tree.
  One that fails leaves the tokens that it did not consume,
  and tells how many blocks it had opened and not closed.

  Key definitions include:
    * `Limits`
    * `Setting`
    * `Failure`
    * `Attempt`
-/

namespace Lox

------------------------------------------------------------
-- Settings
------------------------------------------------------------

/-
  How deep trees, and parentheses in them, may be nested.
  A limit below zero allows what zero does: nothing.
-/
structure Limits where
  depth : Int
  groups : Int
deriving DecidableEq

namespace Limits

/- The limits that hold unless others are set. -/
def standard : Limits :=
  ⟨128, 32⟩

/- The levels of nesting that a whole program may use. -/
def depthRoom
    (l : Limits) : Nat :=
  l.depth.toNat

/- The parentheses that a statement may open at a time. -/
def groupRoom
    (l : Limits) : Nat :=
  l.groups.toNat

end Limits

/- The limits, and the line on which the tokens end. -/
structure Setting where
  limits : Limits
  endLine : Int

/- The line of the next token, or of the end. -/
def Setting.lineAt
    (set : Setting) : List Token → Int
  | [] => set.endLine
  | t :: _ => t.line

------------------------------------------------------------
-- Attempts
------------------------------------------------------------

/-
  A failed attempt: its error, the tokens from the point of
  failure on, and the number of blocks open there.
-/
structure Failure where
  error : ParseError
  rest : List Token
  opened : Nat

/- A tree and the tokens after it, or a failure. -/
inductive Attempt (α : Type) where
  | done (tree : α) (rest : List Token)
  | failed (f : Failure)

namespace Attempt

variable {α β : Type}

/- Fail at a line, outside of blocks. -/
def fail
    (line : Int)
    (cause : ParseError.Cause)
    (rest : List Token) : Attempt α :=
  failed ⟨⟨line, cause⟩, rest, 0⟩

/- Go on after a successful attempt. -/
def andThen
    (a : Attempt α)
    (next : α → List Token → Attempt β) : Attempt β :=
  match a with
  | done x rest => next x rest
  | failed f => failed f

/- The attempt was made inside of an open block. -/
def inBlock : Attempt α → Attempt α
  | done x rest => done x rest
  | failed f => failed { f with opened := f.opened + 1 }

/- Going on after a success. -/
@[simp]
theorem andThen_done
    (x : α)
    (rest : List Token)
    (next : α → List Token → Attempt β) :
    (done x rest).andThen next = next x rest :=
  rfl

/- A failure stays what it is. -/
@[simp]
theorem andThen_failed
    (f : Failure)
    (next : α → List Token → Attempt β) :
    (failed f).andThen next = failed f :=
  rfl

/- Consume a token of a given kind. -/
def expect
    (set : Setting)
    (kind : Kind)
    (expected : String) : List Token → Attempt Token
  | [] => fail set.endLine .endOfInput []
  | t :: rest =>
      if t.kind = kind then done t rest
      else fail t.line (.wrongToken t.lexeme expected) (t :: rest)

end Attempt

/- Drop the one semicolon that may end a statement. -/
def skipSemicolon : List Token → List Token
  | [] => []
  | t :: rest =>
      if t.kind = .semicolon then rest else t :: rest

end Lox
