import Lox.Environment
import Lox.Evaluation.Error

/-
  The state of a running program, and the steps that trees
  are run by.

  A step that stops keeps the state it has reached: what was
  printed and assigned before an error is not taken back.

  Key definitions include:
    * `Machine`
    * `Eval`
    * `Eval.ofExcept`
    * `Eval.lookup`
    * `Eval.assign`
    * `Eval.define`
    * `Eval.print`
    * `Eval.inScope`
-/

namespace Lox

/- The scopes of a program, and the texts it has printed. -/
structure Machine where
  env : Environment
  printed : List String
deriving DecidableEq

/- A step: it changes the machine and may stop early. -/
abbrev Eval :=
  EStateM Stop Machine

namespace Eval

variable {α : Type}

/- The step that leaves the machine alone. -/
def ofExcept : Except Stop α → Eval α
  | .ok x => pure x
  | .error s => throw s

/- The value of a variable. -/
def lookup
    (name : Token) : Eval Value :=
  fun m =>
    match m.env.get? name.lexeme with
    | some v => .ok v m
    | none =>
        .error
          (.error ⟨name.line, .undefinedVariable name.lexeme⟩)
          m

/- Change the value of a variable. -/
def assign
    (name : Token)
    (v : Value) : Eval Value :=
  fun m =>
    match m.env.assign? name.lexeme v with
    | some env => .ok v { m with env := env }
    | none =>
        .error
          (.error ⟨name.line, .undefinedVariable name.lexeme⟩)
          m

/- Declare a variable in the current scope. -/
def define
    (name : Token)
    (v : Value) : Eval Value :=
  fun m =>
    .ok v { m with env := m.env.define name.lexeme v }

/- Print a value. -/
def print
    (v : Value) : Eval Value :=
  fun m =>
    .ok .nil { m with printed := m.printed ++ [v.render] }

/- Run a step in a scope of its own, closed however it ends. -/
def inScope
    (step : Eval α) : Eval α :=
  fun m =>
    match step { m with env := m.env.push } with
    | .ok x m =>
        match m.env.pop with
        | .ok env => .ok x { m with env := env }
        | .error f => .error (.fault f) m
    | .error s m =>
        match m.env.pop with
        | .ok env => .error s { m with env := env }
        | .error f => .error (.fault f) m

end Eval

end Lox
