import Lox.Session

/-
  The console: where output goes and how it looks.

  Key definitions include:
    * `Channel`
    * `Output`
    * `Console`
    * `Console.line`
    * `Console.error`
    * `Console.event`
-/

namespace Lox

/- Where a text is written to. -/
inductive Channel where
  | out
  | err
deriving DecidableEq, Repr

/- A text that is written. -/
structure Output where
  channel : Channel
  text : String
deriving DecidableEq

namespace Output

/- Everything written to one channel. -/
def onChannel
    (channel : Channel)
    (os : List Output) : String :=
  String.join
    ((os.filter (fun o => o.channel == channel)).map
      Output.text)

end Output

/- A console, which shows errors in red if it has colour. -/
structure Console where
  colour : Bool

namespace Console

/- A text in red. -/
def red
    (s : String) : String :=
  "\x1b[31m" ++ s ++ "\x1b[0m"

/- Write a line. -/
def line
    (_ : Console)
    (s : String) : Output :=
  ⟨.out, s ++ "\n"⟩

/- Write the line of an error. -/
def error
    (c : Console)
    (s : String) : Output :=
  ⟨.err, (if c.colour then red s else s) ++ "\n"⟩

/- Write what was seen of a run. -/
def event
    (c : Console) : Event → Output
  | .printed s => c.line s
  | .reported d => c.error d.text

/- Write the line of a failure that no source explains. -/
def internal
    (c : Console)
    (s : String) : Output :=
  c.error ("Internal error: " ++ s)

end Console

end Lox
