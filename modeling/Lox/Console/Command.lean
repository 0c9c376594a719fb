import Lox.Console.Directory
import Lox.Console.Repl
import Lox.Token.Text

/-
  The commands of the command line.

  Key definitions include:
    * `Action`
    * `Command`
    * `Command.ofArguments`
    * `Outcome`
    * `Action.perform`
    * `Command.outcome`
-/

namespace Lox

------------------------------------------------------------
-- Commands
------------------------------------------------------------

/- What can be done with a source file. -/
inductive Action where
  | tokens
  | parse
  | run
deriving DecidableEq, Repr

/- What a command line asks for. -/
inductive Command where
  | usage
  | unknown (name : String)
  | repl (console : Console)
  | file (action : Action) (path : String) (console : Console)

namespace Command

/- The summary of the command line. -/
def usageText : String :=
  "\n".intercalate
    ["Usage:",
      "  lox tokens <file.lox>",
      "  lox parse <file.lox>",
      "  lox run <file.lox>",
      "  lox repl",
      "  (optional) --debug to show Python traceback",
      "  (optional) --no-color to disable colored errors"]

/- The action that a word names. -/
def action? : String → Option Action
  | "tokens" => some .tokens
  | "parse" => some .parse
  | "run" => some .run
  | _ => none

/-
  The command of some arguments.  Each option is taken out
  once, wherever it stands.
-/
def ofArguments
    (arguments : List String) : Command :=
  let colour := !arguments.contains "--no-color"
  let words :=
    (arguments.erase "--debug").erase "--no-color"
  match words with
  | [] => .usage
  | name :: more =>
      if name = "repl" then
        if more.isEmpty then .repl ⟨colour⟩ else .usage
      else
        match action? name, more with
        | none, _ => .unknown name
        | some action, [path] => .file action path ⟨colour⟩
        | some _, _ => .usage

end Command

------------------------------------------------------------
-- Outcomes
------------------------------------------------------------

/- The exit status of a command, and what it writes. -/
structure Outcome where
  status : Nat
  outputs : List Output

namespace Outcome

/- The status that tells whether all went well. -/
def statusOf
    (ok : Bool) : Nat :=
  if ok then 0 else 1

end Outcome

namespace Action

/- List the tokens of a source. -/
def listTokens
    (console : Console)
    (source : String) : Outcome :=
  let items := Token.scan source
  ⟨Outcome.statusOf (Token.errorsOf items).isEmpty,
    items.map
      (fun
        | .ok t => console.line t.listed
        | .error e => console.error (Diagnostic.lexical e).text)⟩

/- Write the program of a source in canonical form. -/
def writeProgram
    (console : Console)
    (source : String) : Outcome :=
  match Decl.ofSource .standard source with
  | .error errors =>
      ⟨1, errors.map
        (fun e => console.error (Diagnostic.lexical e).text)⟩
  | .ok items =>
      ⟨Outcome.statusOf (Decl.errorsOf items).isEmpty,
        items.map
          (fun
            | .ok d => console.line (String.ofList d.chars)
            | .error e =>
                console.error (Diagnostic.structural e).text)⟩

/- Run a source in a session of its own. -/
def runSource
    (console : Console)
    (source : String) : Outcome :=
  let (_, report) := Session.fresh.run source
  let seen := report.events.map console.event
  match report.fault with
  | some f => ⟨1, seen ++ [console.internal f.message]⟩
  | none => ⟨Outcome.statusOf report.ok, seen⟩

/- Do what was asked for with a source. -/
def perform : Action → Console → String → Outcome
  | tokens => listTokens
  | parse => writeProgram
  | run => runSource

end Action

namespace Unread

/- The report of a file that cannot be read. -/
def report
    (path : String) : Unread → String
  | refused reason => "Cannot read " ++ path ++ ": " ++ reason
  | nullInName => "Internal error: embedded null byte"
  | notText f => "Internal error: " ++ f.message

end Unread

namespace Command

/- The outcome of a command on a file that was read or not. -/
def fileOutcome
    (action : Action)
    (path : String)
    (console : Console) :
    Except Unread (List UInt8) → Outcome
  | .error u => ⟨1, [console.error (u.report path)]⟩
  | .ok bytes =>
      match readSource bytes with
      | .error u => ⟨1, [console.error (u.report path)]⟩
      | .ok source => action.perform console source

/-
  The outcome of a command in a directory, given all of its
  standard input.
-/
def outcome
    (dir : Directory)
    (input : String) : Command → Outcome
  | usage => ⟨1, [⟨.out, usageText ++ "\n"⟩]⟩
  | unknown name =>
      ⟨1, [⟨.out, "Unknown command: " ++ name ++ "\n"⟩]⟩
  | repl console =>
      let lines := Text.lines (Text.unifyNewlines input.toList)
      ⟨0, Repl.run console (lines.map String.ofList)⟩
  | file action path console =>
      fileOutcome action path console (dir.find path)

end Command

end Lox
