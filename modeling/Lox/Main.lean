import Lox.Console.Command

/-
  The program: it reads the command line, files and the
  terminal, and writes what the commands lead to.
-/

namespace Lox

/- Write a text where it belongs. -/
def Output.write
    (o : Output) : IO Unit := do
  let stream ←
    match o.channel with
    | .out => IO.getStdout
    | .err => IO.getStderr
  stream.putStr o.text
  stream.flush

/-
  Why the system refuses a file.  Directories, and paths
  that go through a file, differ only in their code.
-/
def Unread.ofError : IO.Error → Unread
  | .noFileOrDirectory _ _ _ => notFound
  | .inappropriateType _ code _ =>
      if code = 21 then isDirectory else notDirectory
  | .permissionDenied _ _ _ => refused "Permission denied"
  | .invalidArgument _ _ "name too long" => nameTooLong
  | e => refused (toString e)

/- Read the bytes of a file. -/
def readBytes
    (path : String) : IO (Except Unread (List UInt8)) := do
  if '\x00' ∈ path.toList then
    return .error .nullInName
  else
    try
      let bytes ← IO.FS.readBinFile path
      return .ok bytes.toList
    catch e => return .error (.ofError e)

/- Take in lines until one of them ends the loop. -/
def Repl.takeIn
    (console : Console)
    (r : Repl) : List String → IO (Option Repl)
  | [] => return some r
  | line :: lines => do
      let (next, os) := r.feed console line
      os.forM Output.write
      match next with
      | none => return none
      | some r =>
          if lines.isEmpty then return some r
          else
            r.prompt.write
            takeIn console r lines

/- Prompt, read and react until the input ends. -/
partial def Repl.loop
    (console : Console)
    (r : Repl) : IO Unit := do
  r.prompt.write
  let text ← (← IO.getStdin).getLine
  if text.isEmpty then
    (console.line "").write
  else
    let lines := Text.lines (Text.unifyNewlines text.toList)
    match ← r.takeIn console (lines.map String.ofList) with
    | none => return
    | some r => r.loop console

/- Write the outcome of a command; the result is its status. -/
def Outcome.report
    (o : Outcome) : IO UInt32 := do
  o.outputs.forM Output.write
  return o.status.toUInt32

end Lox

open Lox in
/- Run the command that the arguments ask for. -/
def main
    (arguments : List String) : IO UInt32 := do
  match Command.ofArguments arguments with
  | .repl console =>
      (console.line Repl.banner).write
      Repl.fresh.loop console
      return 0
  | .file action path console =>
      let bytes ← readBytes path
      (Command.fileOutcome action path console bytes).report
  | command => (command.outcome ⟨[]⟩ "").report
