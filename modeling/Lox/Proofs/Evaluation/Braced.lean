import Lox.Proofs.Environment.Padding
import Lox.Proofs.Evaluation.Nesting
import Lox.Proofs.Evaluation.Truncation

/-
  Statements in braces.

  A statement in braces runs in an empty scope of its own.  It
  declares no name in that scope, and no name is found there,
  so that it does what it does without the braces: only its
  value is lost.  The braces are a level of nesting, which
  shows if there is no room for it.

  Key definitions include:
    * `Stmt.braced`
    * `Eval.SameButValue`

  Key theorems include:
    * `Eval.simulation_pad`
    * `Stmt.exec_braced`
    * `Stmt.sameButValue_braced`
-/

namespace Lox

open Environment

/- A statement in braces. -/
def Stmt.braced
    (s : Stmt) : Stmt :=
  .block [.statement s]

------------------------------------------------------------
-- The Empty Scope
------------------------------------------------------------

/-
  What machines do with and without an empty scope below the
  scopes that were opened.  Names may be declared in these
  scopes, but not in the current one.
-/
theorem Eval.simulation_pad
    {start : Environment}
    (hStart : start.HasCurrent) :
    Simulation (fun _ => True) False
      (fun k m m' =>
        SameShape (start.pushes k) m.env ∧
          m' = { m with
            env := m.env.pad start.scopes.length
              start.current }) := by
  constructor
  case resolves =>
    rintro k m _ name - ⟨hShape, rfl⟩
    have hn := length_le_of_pushes hShape
    dsimp only
    rw [resolve_pad hStart hShape]
    cases m.env.resolve name with
    | none => exact .none
    | some i =>
        refine .some ⟨(valueIn_pad hn i name).symm,
          fun v => ⟨?_, ?_⟩⟩
        · exact hShape.trans (sameShape_insertAt _ _ _ _)
        · rw [insertAt_pad hn]
  case defines =>
    rintro k m _ name hDeclares - ⟨hShape, rfl⟩ v
    refine ⟨hShape.trans (sameShape_insertAt _ _ _ _), ?_⟩
    cases k with
    | zero => exact (hDeclares.elim (Nat.lt_irrefl 0) id).elim
    | succ k =>
        have hAbove :
            start.scopes.length ≤ m.env.current := by
          rw [← hShape.current]
          exact length_le_of_pushes (SameShape.refl _)
        rw [define_pad (length_le_of_pushes hShape) hAbove]
  case prints =>
    rintro k m _ ⟨hShape, rfl⟩ text
    exact ⟨hShape, rfl⟩
  case opens =>
    rintro k m _ ⟨hShape, rfl⟩
    refine ⟨hShape.push, ?_⟩
    rw [push_pad (length_le_of_pushes hShape)]
  case closes =>
    rintro k m _ ⟨hShape, rfl⟩
    have hOuter := length_le_of_pushes
      (SameShape.refl (start.pushes k))
    have hScopes :
        ((start.pushes k).pad start.scopes.length
          start.current).scopes ≠ [] := by
      simp [pad]
    have hPadded :=
      hShape.pad start.scopes.length start.current
    rw [pushes, push_pad hOuter] at hPadded
    refine .inl ⟨_, _,
      pop_of_pushes hStart.scopes_ne_nil hShape,
      pop_eq_ok hScopes hPadded, hShape.closed, ?_⟩
    rw [closed_pad hOuter hShape]

/-
  With room for the braces, a statement in braces does what
  the statement does, for no value.
-/
theorem Stmt.exec_braced
    {m : Machine}
    (limit : Int)
    (s : Stmt)
    (room : Nat)
    (hCurrent : m.env.HasCurrent) :
    s.braced.exec limit (room + 1) m =
      (s.exec limit room >>= fun _ => pure .nil) m := by
  have hEnding :=
    s.simulates_exec (Eval.simulation_pad hCurrent) limit
      room 0 (fun _ _ => trivial) m _
      ⟨SameShape.refl _, rfl⟩
  rw [pad_eq_push hCurrent] at hEnding
  unfold braced
  rw [exec, Decl.execAll, Decl.execAll, Decl.exec]
  unfold Eval.inScope
  rw [Eval.bind_apply, Eval.bind_apply]
  generalize s.exec limit room m = r,
    s.exec limit room { m with env := m.env.push } = r'
    at hEnding
  cases hEnding with
  | ok v h =>
      rcases h with ⟨hShape, rfl⟩
      dsimp only [pure, EStateM.pure]
      rw [pop_pad hCurrent hShape]
  | error stop h =>
      rcases h with ⟨hShape, rfl⟩
      dsimp only
      rw [pop_pad hCurrent hShape]

------------------------------------------------------------
-- Endings
------------------------------------------------------------

/-
  How a statement in braces ends, next to the statement by
  itself: for no value, or for the same reason, and with the
  same machine in either case.  Where there is room for an
  open place only without the braces, they make it stop for
  want of a line.
-/
inductive Eval.SameButValue
    (isOpen : Prop) :
    EStateM.Result Stop Machine Value →
      EStateM.Result Stop Machine Value → Prop where
  | value
      (v : Value)
      (m : Machine) :
      SameButValue isOpen (.ok .nil m) (.ok v m)
  | stop
      (s : Stop)
      (m : Machine) :
      SameButValue isOpen (.error s m) (.error s m)
  | unplaced
      (hOpen : isOpen)
      (h : Hole)
      (m : Machine) :
      SameButValue isOpen
        (.error (.fault (.unplaced h)) m)
        (.error (.fault h.fault) m)

/-
  Unless it is nested too deep, a statement in braces ends as
  the statement by itself does.
-/
theorem Stmt.sameButValue_braced
    {limit : Int}
    {s : Stmt}
    {room : Nat}
    {m : Machine}
    (hCurrent : m.env.HasCurrent)
    (hBraced :
      ¬ Eval.TooDeep limit (s.braced.exec limit room m)) :
    Eval.SameButValue (s.missing? ≠ none)
      (s.braced.exec limit room m) (s.exec limit room m) := by
  cases room with
  | zero =>
      have hLine : s.braced.line = s.line := by
        rw [braced, line, Decl.line]
      rw [exec, hLine] at hBraced ⊢
      rw [exec]
      cases hStop : s.line with
      | ok line =>
          rw [hStop] at hBraced
          exact absurd ⟨line.getD 0, m, rfl⟩ hBraced
      | error f => exact .stop _ m
  | succ room =>
      -- the statement itself has a level less in the braces
      have hTruncated :=
        (s.truncates_exec limit limit
          (Nat.le_succ room)).truncated m
          hCurrent.scopes_ne_nil
      rw [exec_braced limit s room hCurrent,
        Eval.bind_apply] at hBraced ⊢
      generalize s.exec limit room m = r,
        s.exec limit (room + 1) m = r'
        at hTruncated hBraced ⊢
      cases hTruncated with
      | same =>
          cases r with
          | ok v after => exact .value v after
          | error stop after => exact .stop stop after
      | tooDeep hPrinted =>
          exact absurd ⟨_, _, rfl⟩ hBraced
      | unplaced hOpen h after =>
          exact .unplaced hOpen h after

/- An assignment that negates `x`. -/
def Stmt.negates : Stmt :=
  .expression (.assign ⟨.identifier, "x", .absent, 1⟩
    (.unary ⟨.bang, "!", .absent, 1⟩
      (.identifier ⟨.identifier, "x", .absent, 1⟩)))

/- An `x` with some value, seen from a scope of its own. -/
def Machine.outerX
    (b : Bool) : Machine :=
  ⟨⟨[⟨none, [("x", .bool b)]⟩, ⟨some 0, []⟩], 1⟩, []⟩

/-
  In braces, the assignment reaches the `x` that it reaches
  by itself.
-/
theorem Stmt.sameButValue_braced_negates :
    (Machine.outerX true).env.HasCurrent ∧
      ¬ Eval.TooDeep 5
        (negates.braced.exec 5 5 (.outerX true)) ∧
      Eval.SameButValue (negates.missing? ≠ none)
        (negates.braced.exec 5 5 (.outerX true))
        (negates.exec 5 5 (.outerX true)) ∧
      Eval.final (negates.exec 5 5 (.outerX true)) =
        .outerX false := by
  have hCurrent : (Machine.outerX true).env.HasCurrent :=
    Nat.lt_succ_self 1
  have hComplete :
      (Decl.statement negates.braced).missing? = none := by
    decide +kernel
  have hBraced :
      ¬ Eval.TooDeep 5
        (negates.braced.exec 5 5 (.outerX true)) := by
    intro hDeep
    have hReach := (Decl.tooDeep_evaluate_iff hComplete
      hCurrent.scopes_ne_nil 5).mp hDeep
    revert hReach
    decide +kernel
  exact ⟨hCurrent, hBraced,
    sameButValue_braced hCurrent hBraced, by decide +kernel⟩

/-
  An open place, with room for one level: by itself it is
  run, but in braces it is only asked for its line.
-/
theorem Stmt.braced_hole_stops_otherwise :
    let m : Machine := ⟨.fresh, []⟩
    let run := (Decl.statement .hole).evaluate 1 m
    let braced :=
      (Decl.statement (Stmt.braced .hole)).evaluate 1 m
    m.env.HasCurrent ∧
      ¬ Eval.TooDeep 1 run ∧ ¬ Eval.TooDeep 1 braced ∧
      run = .error (.fault .notStatement) m ∧
      braced = .error (.fault (.unplaced .stmt)) m ∧
      Fault.message .notStatement ≠
        Fault.message (.unplaced .stmt) := by
  refine ⟨Nat.lt_succ_self 0, ?_, ?_, rfl, rfl, by decide⟩
  · rintro ⟨line, m, hStop⟩
    cases hStop
  · rintro ⟨line, m, hStop⟩
    cases hStop

end Lox
