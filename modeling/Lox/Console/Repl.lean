import Lox.Console
import Lox.Console.Braces
import Lox.Text.Blank

/-
  The read-eval-print loop.

  Lines are collected as long as they open more braces than
  they close; then they are run as one source, and the
  values of bare expressions are shown.

  Key definitions include:
    * `Repl`
    * `Repl.Reaction`
    * `Repl.react`
    * `Repl.submit`
    * `Repl.feed`
    * `Repl.run`
-/

namespace Lox

/-
  The state of the loop: the session, the lines collected,
  and the balance of their braces.
-/
structure Repl where
  session : Session
  buffer : List String
  balance : Int

namespace Repl

/- The state before the first line. -/
def fresh : Repl :=
  ⟨.fresh, [], 0⟩

------------------------------------------------------------
-- Reactions
------------------------------------------------------------

/- What a line leads to. -/
inductive Reaction where
  | quit
  | reset
  | ignore
  | collect (buffer : List String) (balance : Int)
  | run (source : String)
deriving DecidableEq

/- The commands that end the loop. -/
def quitCommands : List String :=
  [":q", ":quit", "quit", "exit"]

/- The command that forgets all variables. -/
def resetCommand : String :=
  ":reset"

/- Lines as one source; every line ends with a line feed. -/
def sourceOf
    (buffer : List String) : String :=
  "\n".intercalate buffer ++ "\n"

/-
  The reaction to a line.  Commands and blank lines are only
  noticed where no lines are collected.
-/
def react
    (r : Repl)
    (line : String) : Reaction :=
  let word := Text.trim line
  let idle := r.buffer.isEmpty
  if idle ∧ word ∈ quitCommands then .quit
  else if idle ∧ word = resetCommand then .reset
  else if idle ∧ r.balance = 0 ∧ word.isEmpty then .ignore
  else
    let buffer := r.buffer ++ [line]
    let balance := r.balance + Braces.balance line
    if 0 < balance then .collect buffer balance
    else .run (sourceOf buffer)

------------------------------------------------------------
-- Running
------------------------------------------------------------

/- The values that are shown: those of bare expressions. -/
def echoes
    (values : List (Decl × Value)) : List String :=
  values.filterMap
    (fun
      | (.statement (.expression _), v) => some v.render
      | _ => none)

/- Run a source and write what comes of it. -/
def submit
    (console : Console)
    (session : Session)
    (source : String) : Session × List Output :=
  let (session, report) := session.run source
  let seen := report.events.map console.event
  match report.fault with
  | some f => (session, seen ++ [console.internal f.message])
  | none =>
      (session, seen ++ (echoes report.values).map console.line)

/- The prompt: it shows whether lines are collected. -/
def prompt
    (r : Repl) : Output :=
  ⟨.out, if r.buffer.isEmpty then "lox> " else "...> "⟩

/-
  Take in a line: the next state, if the loop goes on, and
  what is written.
-/
def feed
    (console : Console)
    (r : Repl)
    (line : String) : Option Repl × List Output :=
  match r.react line with
  | .quit => (none, [])
  | .reset => (some { r with session := .fresh }, [])
  | .ignore => (some r, [])
  | .collect buffer balance =>
      (some { r with buffer := buffer, balance := balance },
        [])
  | .run source =>
      let (session, os) := submit console r.session source
      (some ⟨session, [], 0⟩, os)

/- The line that greets the user. -/
def banner : String :=
  "Lox REPL. Type :q to quit, :reset to clear variables."

/-
  Take in all lines there are.  Where they end, the loop
  does too, after a line feed.
-/
def runLines
    (console : Console)
    (r : Repl) : List String → List Output
  | [] => [r.prompt, console.line ""]
  | line :: lines =>
      match r.feed console line with
      | (none, os) => r.prompt :: os
      | (some r', os) =>
          r.prompt :: os ++ runLines console r' lines

/- The loop from its start, for all lines there are. -/
def run
    (console : Console)
    (lines : List String) : List Output :=
  console.line banner :: runLines console .fresh lines

end Repl

end Lox
