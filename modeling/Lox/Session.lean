import Lox.Diagnostic
import Lox.Evaluation
import Lox.Tree.Source

/-
  Sessions: running one source after another.

  The variables of a session outlive a run.  A source is
  scanned as a whole; one that does not scan is not read any
  further.  Otherwise its declarations are run in order, and
  what cannot be read or does not run is reported and passed
  over.

  Key definitions include:
    * `Session`
    * `Event`
    * `Report`
    * `Session.run`
-/

namespace Lox

------------------------------------------------------------
-- Reports
------------------------------------------------------------

/- What a user sees of a run. -/
inductive Event where
  | printed (s : String)
  | reported (d : Diagnostic)
deriving DecidableEq

/-
  The outcome of a run: what was seen, in order, the value
  of every declaration that ran, and the fault that ended
  the run early, if one did.
-/
structure Report where
  events : List Event
  values : List (Decl × Value)
  fault : Option Fault

namespace Report

/- The report of a run that has not done anything. -/
def empty : Report :=
  ⟨[], [], none⟩

/- The errors of a run, in the order they were reported. -/
def errors
    (r : Report) : List Diagnostic :=
  r.events.filterMap
    (fun
      | .printed _ => none
      | .reported d => some d)

/- Whether a run reported no error. -/
def ok
    (r : Report) : Bool :=
  r.errors.isEmpty

/- Add what was seen before the rest. -/
def after
    (r : Report)
    (es : List Event) : Report :=
  { r with events := es ++ r.events }

end Report

------------------------------------------------------------
-- Sessions
------------------------------------------------------------

/- The state that runs share: the variables. -/
structure Session where
  env : Environment
deriving DecidableEq

namespace Session

/- A session without variables. -/
def fresh : Session :=
  ⟨.fresh⟩

/-
  Run a program, up to the first fault.  Declarations that
  could not be read are reported in their turn.
-/
def runAll
    (s : Session) :
    List (Except ParseError Decl) → Session × Report
  | [] => (s, .empty)
  | .error e :: items =>
      let (s', r) := s.runAll items
      (s', r.after [.reported (.structural e)])
  | .ok d :: items =>
      match d.evaluate standardLimit ⟨s.env, []⟩ with
      | .ok v m =>
          let (s', r) := runAll ⟨m.env⟩ items
          (s',
            { r.after (m.printed.map .printed) with
              values := (d, v) :: r.values })
      | .error (.error e) m =>
          let (s', r) := runAll ⟨m.env⟩ items
          (s',
            r.after
              (m.printed.map .printed ++
                [.reported (.runtime e)]))
      | .error (.fault f) m =>
          (⟨m.env⟩, ⟨m.printed.map .printed, [], some f⟩)

/- Run a source. -/
def run
    (s : Session)
    (source : String) : Session × Report :=
  match Decl.ofSource .standard source with
  | .ok items => s.runAll items
  | .error errors =>
      (s,
        Report.empty.after
          (errors.map (fun e => .reported (.lexical e))))

end Session

end Lox
