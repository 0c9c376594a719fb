import Lox.Proofs.Evaluation.Reach
import Lox.Proofs.Evaluation.Simulation

/-
  Running with less room.

  A limit only cuts a run off.  With less room, a complete
  tree ends as it does with more, or it stops because it is
  nested too deep, and what it has printed by then is what
  the run with more room prints first.

  A tree with an open place may be on no line.  If there is
  no room for it, it stops for want of a line, where a run
  with more room comes to the open place and stops there.

  Key definitions include:
    * `Eval.GrowsPrinted`
    * `Eval.StopsAt`
    * `Eval.Truncated`
    * `Eval.Truncates`

  Key theorems include:
    * `Expr.truncates_eval`
    * `Stmt.truncates_exec`
    * `Decl.truncates_exec`
-/

namespace Lox

variable {α β : Type}

------------------------------------------------------------
-- Printed Texts
------------------------------------------------------------

namespace Eval

/- Steps that take back nothing of what was printed. -/
def GrowsPrinted
    (step : Eval α) : Prop :=
  ∀ m, m.printed <+: (final (step m)).printed

/-
  A run next to itself, some texts of which were printed
  first, whatever it does.
-/
theorem simulation_printed
    (texts : List String) :
    Simulation (fun _ => True) True
      (fun _ m m' => m = m' ∧ texts <+: m.printed) where
  resolves := by
    rintro k m m' name - ⟨rfl, hPrinted⟩
    cases m.env.resolve name with
    | none => exact .none
    | some i => exact .some ⟨rfl, fun v => ⟨rfl, hPrinted⟩⟩
  defines := by
    rintro k m m' name - - ⟨rfl, hPrinted⟩ v
    exact ⟨rfl, hPrinted⟩
  prints := by
    rintro k m m' ⟨rfl, hPrinted⟩ text
    exact ⟨rfl, hPrinted.trans (List.prefix_append _ _)⟩
  opens := by
    rintro k m m' ⟨rfl, hPrinted⟩
    exact ⟨rfl, hPrinted⟩
  closes := by
    rintro k m m' ⟨rfl, hPrinted⟩
    cases m.env.pop with
    | ok env =>
        exact .inl ⟨env, env, rfl, rfl, rfl, hPrinted⟩
    | error f => exact .inr ⟨f, rfl, rfl, rfl, hPrinted⟩

/- Steps that end as they do next to themselves. -/
theorem growsPrinted_of_simulates
    {step : Eval α}
    (h :
      ∀ texts, Simulates
        (fun m m' => m = m' ∧ texts <+: m.printed) step) :
    GrowsPrinted step :=
  fun m =>
    (h m.printed m m ⟨rfl, List.prefix_refl _⟩).final.2

/- Looking a name up prints nothing. -/
theorem growsPrinted_lookup
    (name : Token) :
    GrowsPrinted (lookup name) :=
  growsPrinted_of_simulates fun texts =>
    (simulation_printed texts).simulates_lookup (k := 0)
      trivial

/- Assigning prints nothing. -/
theorem growsPrinted_assign
    (name : Token)
    (v : Value) :
    GrowsPrinted (assign name v) :=
  growsPrinted_of_simulates fun texts =>
    (simulation_printed texts).simulates_assign (k := 0)
      trivial v

/- Declaring prints nothing. -/
theorem growsPrinted_define
    (name : Token)
    (v : Value) :
    GrowsPrinted (define name v) :=
  fun _ => List.prefix_refl _

/- Printing adds a text. -/
theorem growsPrinted_print
    (v : Value) :
    GrowsPrinted (print v) :=
  fun _ => List.prefix_append _ _

/- Returning prints nothing. -/
theorem growsPrinted_pure
    (x : α) :
    GrowsPrinted (pure x : Eval α) :=
  fun _ => List.prefix_refl _

/- Stopping prints nothing. -/
theorem growsPrinted_throw
    (s : Stop) :
    GrowsPrinted (throw s : Eval α) :=
  fun _ => List.prefix_refl _

/- Results and errors print nothing. -/
theorem growsPrinted_ofExcept
    (r : Except Stop α) :
    GrowsPrinted (ofExcept r) := by
  cases r with
  | ok x => exact growsPrinted_pure x
  | error s => exact growsPrinted_throw s

/- Steps one after the other take back nothing. -/
theorem GrowsPrinted.bind
    {step : Eval α}
    {next : α → Eval β}
    (h : GrowsPrinted step)
    (hNext : ∀ x, GrowsPrinted (next x)) :
    GrowsPrinted (step >>= next) := by
  intro m
  have hStep := h m
  rw [bind_apply]
  cases hRun : step m with
  | ok x after =>
      rw [hRun] at hStep
      exact hStep.trans (hNext x after)
  | error s after =>
      rw [hRun] at hStep
      exact hStep

/- Nor does a scope of its own. -/
theorem GrowsPrinted.inScope
    {step : Eval α}
    (h : GrowsPrinted step) :
    GrowsPrinted (inScope step) := by
  intro m
  have hStep := h { m with env := m.env.push }
  unfold Eval.inScope
  cases hRun : step { m with env := m.env.push } with
  | ok x after =>
      rw [hRun] at hStep
      dsimp only
      split
      · exact hStep
      · exact hStep
  | error s after =>
      rw [hRun] at hStep
      dsimp only
      split
      · exact hStep
      · exact hStep

end Eval

open Eval hiding ofExcept

/- Evaluating an expression takes back no text. -/
theorem Expr.growsPrinted_eval
    (limit : Int)
    (e : Expr)
    (room : Nat) :
    GrowsPrinted (e.eval limit room) :=
  growsPrinted_of_simulates fun texts =>
    e.simulates_eval (simulation_printed texts) limit room 0
      fun _ _ => trivial

/- Running a statement takes back no text. -/
theorem Stmt.growsPrinted_exec
    (limit : Int)
    (s : Stmt)
    (room : Nat) :
    GrowsPrinted (s.exec limit room) :=
  growsPrinted_of_simulates fun texts =>
    s.simulates_exec (simulation_printed texts) limit room 0
      fun _ _ => trivial

/- Running a declaration takes back no text. -/
theorem Decl.growsPrinted_exec
    (limit : Int)
    (d : Decl)
    (room : Nat) :
    GrowsPrinted (d.exec limit room) :=
  growsPrinted_of_simulates fun texts =>
    d.simulates_exec (simulation_printed texts) limit room 0
      (.inr trivial) fun _ _ => trivial

------------------------------------------------------------
-- Trees on No Line
------------------------------------------------------------

/- The fault of running an open place. -/
def Hole.fault : Hole → Fault
  | expr => .notExpression
  | stmt => .notStatement
  | decl => .notDeclaration Hole.decl.name

namespace Eval

variable {h : Hole}

/-
  Steps that stop at an open place before they do anything:
  it is run, or its line is asked for.
-/
def StopsAt
    (h : Hole)
    (step : Eval α) : Prop :=
  ∀ m, m.env.scopes ≠ [] →
    step m = .error (.fault (.unplaced h)) m ∨
      step m = .error (.fault h.fault) m

/- Asking for a line where there is none. -/
theorem stopsAt_unplaced
    (h : Hole) :
    StopsAt h (throw (.fault (.unplaced h)) : Eval α) :=
  fun _ _ => .inl rfl

/- Running what is open. -/
theorem stopsAt_fault
    (h : Hole) :
    StopsAt h (throw (.fault h.fault) : Eval α) :=
  fun _ _ => .inr rfl

/- What would come next is not done. -/
theorem StopsAt.bind
    {step : Eval α}
    (hStep : StopsAt h step)
    (next : α → Eval β) :
    StopsAt h (step >>= next) := by
  intro m hScopes
  rw [bind_apply]
  rcases hStep m hScopes with hRun | hRun
  · rw [hRun]
    exact .inl rfl
  · rw [hRun]
    exact .inr rfl

/- A scope that was opened for the step is closed again. -/
theorem StopsAt.inScope
    {step : Eval α}
    (hStep : StopsAt h step) :
    StopsAt h (inScope step) := by
  intro m hScopes
  have hPop := Environment.pop_eq_ok hScopes
    (Environment.SameShape.refl m.env.push)
  rw [m.env.closed_push] at hPop
  have hPush : m.env.push.scopes ≠ [] := by
    simp [Environment.push]
  unfold Eval.inScope
  rcases hStep { m with env := m.env.push } hPush with
    hRun | hRun
  · left
    rw [hRun]
    simp only [hPop]
  · right
    rw [hRun]
    simp only [hPop]

end Eval

/- Without room, an expression is asked for its line. -/
theorem Expr.stopsAt_eval_zero
    {e : Expr}
    {h : Hole}
    (hLine : e.line = .error (.unplaced h))
    (limit : Int) :
    StopsAt h (e.eval limit 0) := by
  rw [eval, hLine]
  exact stopsAt_unplaced h

/- Without room, a statement is asked for its line. -/
theorem Stmt.stopsAt_exec_zero
    {s : Stmt}
    {h : Hole}
    (hLine : s.line = .error (.unplaced h))
    (limit : Int) :
    StopsAt h (s.exec limit 0) := by
  rw [exec, hLine]
  exact stopsAt_unplaced h

/-
  Whether what is run, with any limit and room, comes to an
  open place before anything else; `f` is the fault of asking
  for its line.
-/
def Eval.StartsOpen
    (f : Fault)
    (missing : Option Hole)
    (run : Int → Nat → Eval α) : Prop :=
  missing ≠ none ∧
    ∃ h : Hole, f = .unplaced h ∧
      ∀ limit room, StopsAt h (run limit room)

/- What starts with an open place has one. -/
theorem Option.ne_none_of_or
    {missing : Option Hole}
    (h : missing ≠ none)
    (more : Option Hole) :
    missing.or more ≠ none :=
  fun hNone => h (Option.or_eq_none_iff.mp hNone).1

/- What goes on with an open place has one. -/
theorem Option.or_ne_none
    {missing : Option Hole}
    (h : missing ≠ none)
    (first : Option Hole) :
    first.or missing ≠ none :=
  fun hNone => h (Option.or_eq_none_iff.mp hNone).2

/- An expression that starts with another one. -/
theorem Expr.startsOpen_of_first
    {e first : Expr}
    {f : Fault}
    (h : StartsOpen f first.missing? first.eval)
    (hMissing : first.missing? ≠ none → e.missing? ≠ none)
    (hEval :
      ∀ limit room h, StopsAt h (first.eval limit room) →
        StopsAt h (e.eval limit (room + 1)))
    (hLine : e.line = .error f) :
    StartsOpen f e.missing? e.eval := by
  rcases h with ⟨hOpen, h, rfl, hStops⟩
  refine ⟨hMissing hOpen, h, rfl, fun limit room => ?_⟩
  cases room with
  | zero => exact stopsAt_eval_zero hLine limit
  | succ room => exact hEval limit room _ (hStops limit room)

/- An expression on no line starts with an open place. -/
theorem Expr.startsOpen
    {e : Expr}
    {f : Fault}
    (hLine : e.line = .error f) :
    StartsOpen f e.missing? e.eval := by
  induction e with
  | literal t => cases hLine
  | identifier name => cases hLine
  | grouping e ih =>
      exact startsOpen_of_first (ih hLine) id
        (fun _ _ _ hStops => hStops) hLine
  | unary op e ih => cases hLine
  | binary left op right ihLeft ihRight =>
      exact startsOpen_of_first (ihLeft hLine)
        (fun hOpen => Option.ne_none_of_or hOpen _)
        (fun _ _ _ hStops => hStops.bind _) hLine
  | logical left op right ihLeft ihRight =>
      exact startsOpen_of_first (ihLeft hLine)
        (fun hOpen => Option.ne_none_of_or hOpen _)
        (fun _ _ _ hStops => hStops.bind _) hLine
  | assign target e ih => cases hLine
  | hole =>
      have hHole := hLine
      cases hHole
      refine ⟨nofun, .expr, rfl, fun limit room => ?_⟩
      cases room with
      | zero => exact stopsAt_eval_zero hLine limit
      | succ room => exact stopsAt_fault .expr

/- The line of an expression, as that of a statement. -/
theorem Expr.line_eq_error_of_map
    {e : Expr}
    {f : Fault}
    (h : e.line.map some = .error f) :
    e.line = .error f := by
  cases hLine : e.line with
  | ok line =>
      rw [hLine] at h
      cases h
  | error g =>
      rw [hLine] at h
      cases h
      rfl

/- A statement that starts with an expression. -/
theorem Stmt.startsOpen_of_expr
    {s : Stmt}
    {e : Expr}
    {f : Fault}
    (hLine : s.line = e.line.map some)
    (hMissing : e.missing? ≠ none → s.missing? ≠ none)
    (hExec :
      ∀ limit room h, StopsAt h (e.eval limit room) →
        StopsAt h (s.exec limit (room + 1)))
    (hFault : s.line = .error f) :
    StartsOpen f s.missing? s.exec := by
  have hExpr := hLine.symm.trans hFault
  rcases Expr.startsOpen (Expr.line_eq_error_of_map hExpr) with
    ⟨hOpen, h, rfl, hStops⟩
  refine ⟨hMissing hOpen, h, rfl, fun limit room => ?_⟩
  cases room with
  | zero => exact stopsAt_exec_zero hFault limit
  | succ room => exact hExec limit room _ (hStops limit room)

mutual

/- A statement on no line starts with an open place. -/
theorem Stmt.startsOpen :
    ∀ {s : Stmt} {f : Fault}, s.line = .error f →
      StartsOpen f s.missing? s.exec
  | .expression e, f, h =>
      Stmt.startsOpen_of_expr (e := e) (by rw [Stmt.line])
        (by rw [Stmt.missing?]; exact id)
        (fun limit room hole hStops => by
          rw [Stmt.exec]
          exact hStops) h
  | .print e, f, h =>
      Stmt.startsOpen_of_expr (e := e) (by rw [Stmt.line])
        (by rw [Stmt.missing?]; exact id)
        (fun limit room hole hStops => by
          rw [Stmt.exec]
          exact hStops.bind _) h
  | .ifThen c s, f, h =>
      Stmt.startsOpen_of_expr (e := c) (by rw [Stmt.line])
        (by
          rw [Stmt.missing?]
          exact fun hOpen => Option.ne_none_of_or hOpen _)
        (fun limit room hole hStops => by
          rw [Stmt.exec]
          exact (hStops.bind _).bind _) h
  | .ifElse c s t, f, h =>
      Stmt.startsOpen_of_expr (e := c) (by rw [Stmt.line])
        (by
          rw [Stmt.missing?]
          exact fun hOpen => Option.ne_none_of_or hOpen _)
        (fun limit room hole hStops => by
          rw [Stmt.exec]
          exact (hStops.bind _).bind _) h
  | .block [], f, h => by
      rw [Stmt.line] at h
      cases h
  | .block (d :: ds), f, h => by
      have hFirst := h
      rw [Stmt.line] at hFirst
      rcases Decl.startsOpen hFirst with
        ⟨hOpen, hole, rfl, hStops⟩
      refine ⟨?_, hole, rfl, fun limit room => ?_⟩
      · rw [Stmt.missing?, Decl.firstMissing?]
        exact Option.ne_none_of_or hOpen _
      · cases room with
        | zero => exact Stmt.stopsAt_exec_zero h limit
        | succ room =>
            change StopsAt hole
              (Stmt.exec limit (.block (d :: ds)) (room + 1))
            rw [Stmt.exec, Decl.execAll]
            exact ((hStops limit room).bind _).inScope
  | .hole, f, h => by
      have hLine := h
      rw [Stmt.line] at hLine
      cases hLine
      refine ⟨?_, .stmt, rfl, fun limit room => ?_⟩
      · rw [Stmt.missing?]
        nofun
      · cases room with
        | zero => exact Stmt.stopsAt_exec_zero h limit
        | succ room =>
            change StopsAt .stmt
              (Stmt.exec limit .hole (room + 1))
            rw [Stmt.exec]
            exact stopsAt_fault .stmt

/- So does a declaration. -/
theorem Decl.startsOpen :
    ∀ {d : Decl} {f : Fault}, d.line = .error f →
      StartsOpen f d.missing? d.exec
  | .declare name value, f, h => by
      rw [Decl.line] at h
      cases h
  | .statement s, f, h => by
      rw [Decl.line] at h
      rcases Stmt.startsOpen h with ⟨hOpen, hole, hf, hStops⟩
      refine ⟨?_, hole, hf, fun limit room => ?_⟩
      · rw [Decl.missing?]
        exact hOpen
      · change StopsAt hole (Decl.exec limit (.statement s) room)
        rw [Decl.exec]
        exact hStops limit room
  | .hole, f, h => by
      rw [Decl.line] at h
      cases h
      refine ⟨?_, .decl, rfl, fun limit room => ?_⟩
      · rw [Decl.missing?]
        nofun
      · change StopsAt .decl (Decl.exec limit .hole room)
        rw [Decl.exec]
        exact stopsAt_fault .decl

end

------------------------------------------------------------
-- Less Room and More
------------------------------------------------------------

namespace Eval

variable {limit : Int} {isOpen : Prop}

/-
  How a run with less room ends, next to one with more: in
  the same way; too deep, after a first part of the other's
  texts; or, in a tree with an open place, before that place
  where the other one stops at it.
-/
inductive Truncated
    (limit : Int)
    (isOpen : Prop) :
    EStateM.Result Stop Machine α →
      EStateM.Result Stop Machine α → Prop where
  | same
      (r : EStateM.Result Stop Machine α) :
      Truncated limit isOpen r r
  | tooDeep
      {line : Int} {m : Machine}
      {r : EStateM.Result Stop Machine α}
      (hPrinted : m.printed <+: (final r).printed) :
      Truncated limit isOpen
        (.error (.error ⟨line, .nestingTooDeep limit⟩) m) r
  | unplaced
      (hOpen : isOpen)
      (h : Hole)
      (m : Machine) :
      Truncated limit isOpen
        (.error (.fault (.unplaced h)) m)
        (.error (.fault h.fault) m)

/-
  Steps with less and with more room.  What follows a step
  may print more, but takes nothing back, so that a first
  part of the texts remains one.
-/
structure Truncates
    (limit : Int)
    (isOpen : Prop)
    (step step' : Eval α) : Prop where
  keepsShape : KeepsShape step
  keepsShape' : KeepsShape step'
  growsPrinted : GrowsPrinted step'
  truncated :
    ∀ m, m.env.scopes ≠ [] →
      Truncated limit isOpen (step m) (step' m)

namespace Truncates

/- Steps that need no room. -/
theorem refl
    {step : Eval α}
    (hShape : KeepsShape step)
    (hPrinted : GrowsPrinted step) :
    Truncates limit isOpen step step where
  keepsShape := hShape
  keepsShape' := hShape
  growsPrinted := hPrinted
  truncated m _ := .same (step m)

/- Results and errors need no room. -/
theorem ofExcept
    (r : Except Stop α) :
    Truncates limit isOpen (Eval.ofExcept r)
      (Eval.ofExcept r) :=
  refl (keepsShape_ofExcept r) (growsPrinted_ofExcept r)

/- Returning needs no room. -/
theorem pure
    (x : α) :
    Truncates limit isOpen (Pure.pure x) (Pure.pure x) :=
  refl (keepsShape_pure x) (growsPrinted_pure x)

/- Stopping needs no room. -/
theorem throw
    (s : Stop) :
    Truncates limit isOpen (MonadExcept.throw s : Eval α)
      (MonadExcept.throw s) :=
  refl (keepsShape_throw s) (growsPrinted_throw s)

/- A tree has an open place if a part of it does. -/
theorem mono
    {step step' : Eval α}
    {isOpen' : Prop}
    (h : Truncates limit isOpen step step')
    (hOpen : isOpen → isOpen') :
    Truncates limit isOpen' step step' where
  keepsShape := h.keepsShape
  keepsShape' := h.keepsShape'
  growsPrinted := h.growsPrinted
  truncated m hScopes := by
    have hStep := h.truncated m hScopes
    generalize step m = r, step' m = r' at hStep ⊢
    cases hStep with
    | same => exact .same _
    | tooDeep hPrinted => exact .tooDeep hPrinted
    | unplaced hPart => exact .unplaced (hOpen hPart) _ _

/- Steps one after the other, with less and more room. -/
theorem bind
    {step step' : Eval α}
    {next next' : α → Eval β}
    (h : Truncates limit isOpen step step')
    (hNext : ∀ x, Truncates limit isOpen (next x) (next' x)) :
    Truncates limit isOpen (step >>= next)
      (step' >>= next') where
  keepsShape := h.keepsShape.bind fun x => (hNext x).keepsShape
  keepsShape' :=
    h.keepsShape'.bind fun x => (hNext x).keepsShape'
  growsPrinted :=
    h.growsPrinted.bind fun x => (hNext x).growsPrinted
  truncated m hScopes := by
    have hShape := h.keepsShape m hScopes
    have hStep := h.truncated m hScopes
    rw [bind_apply, bind_apply]
    generalize step m = r, step' m = r' at hStep hShape ⊢
    cases hStep with
    | same =>
        cases r with
        | ok x after =>
            exact (hNext x).truncated after
              (hShape.scopes_ne_nil hScopes)
        | error s after => exact .same _
    | tooDeep hPrinted =>
        cases r' with
        | ok x after =>
            exact .tooDeep (hPrinted.trans
              ((hNext x).growsPrinted after))
        | error s after => exact .tooDeep hPrinted
    | unplaced hOpen => exact .unplaced hOpen _ _

/- A scope of its own takes no room. -/
theorem inScope
    {step step' : Eval α}
    (h : Truncates limit isOpen step step') :
    Truncates limit isOpen (inScope step)
      (inScope step') where
  keepsShape := h.keepsShape.inScope
  keepsShape' := h.keepsShape'.inScope
  growsPrinted := h.growsPrinted.inScope
  truncated m hScopes := by
    have hPush : m.env.push.scopes ≠ [] := by
      simp [Environment.push]
    have hStep :=
      h.truncated { m with env := m.env.push } hPush
    rw [inScope_eq hScopes h.keepsShape,
      inScope_eq hScopes h.keepsShape']
    generalize step { m with env := m.env.push } = r,
      step' { m with env := m.env.push } = r' at hStep ⊢
    cases hStep with
    | same => exact .same _
    | tooDeep hPrinted =>
        cases r' with
        | ok x after => exact .tooDeep hPrinted
        | error s after => exact .tooDeep hPrinted
    | unplaced hOpen => exact .unplaced hOpen _ _

/- Of two steps, the one that is chosen, with less and more. -/
theorem ite
    {step step' other other' : Eval α}
    (h : Truncates limit isOpen step step')
    (hOther : Truncates limit isOpen other other')
    (b : Bool) :
    Truncates limit isOpen (if b then step else other)
      (if b then step' else other') := by
  cases b with
  | true => exact h
  | false => exact hOther

/-
  Without any room, a tree stops for want of it, unless it is
  on no line.
-/
theorem of_line
    {line : Except Fault (Option Int)}
    {missing : Option Hole}
    {run : Int → Nat → Eval α}
    {limit' : Int}
    {room' : Nat}
    (hShape : KeepsShape (run limit' room'))
    (hPrinted : GrowsPrinted (run limit' room'))
    (hOpen :
      ∀ f, line = .error f → StartsOpen f missing run) :
    Truncates limit (missing ≠ none)
      (MonadExcept.throw (Stop.tooDeep limit line))
      (run limit' room') where
  keepsShape := keepsShape_throw _
  keepsShape' := hShape
  growsPrinted := hPrinted
  truncated m hScopes := by
    cases line with
    | ok line => exact .tooDeep (hPrinted m)
    | error f =>
        rcases hOpen f rfl with ⟨hMissing, h, rfl, hStops⟩
        rcases hStops limit' room' m hScopes with hRun | hRun
        · rw [hRun]
          exact .same _
        · rw [hRun]
          exact .unplaced hMissing h m

end Truncates

end Eval

------------------------------------------------------------
-- Expressions
------------------------------------------------------------

variable {limit limit' : Int} {isOpen : Prop}
variable {room room' : Nat}

/- What follows a left operand, with less and more room. -/
theorem Expr.truncates_evalRight
    (whole : Expr)
    (op : Token)
    {right right' : Eval Value}
    (h : Truncates limit isOpen right right')
    (x : Value) :
    Truncates limit isOpen (whole.evalRight op right x)
      (whole.evalRight op right' x) := by
  refine (Truncates.ofExcept _).bind fun a => ?_
  split
  · exact .pure _
  · split
    · exact .pure _
    · exact h.bind fun y =>
        (Truncates.ofExcept _).bind fun b => .pure _

/- Deciding a condition needs no room. -/
theorem Expr.truncates_decide
    (c : Expr)
    (v : Value) :
    Truncates limit isOpen (c.decide v) (c.decide v) :=
  .refl (c.keepsShape_decide v)
    (growsPrinted_of_simulates fun _ => c.simulates_decide v)

/- An expression that evaluates by steps below its level. -/
theorem Expr.truncates_of_level
    {e : Expr}
    {step : Int → Nat → Eval Value}
    (hSucc :
      ∀ limit room, e.eval limit (room + 1) = step limit room)
    (hStep :
      ∀ {room room'}, room ≤ room' →
        Truncates limit (e.missing? ≠ none)
          (step limit room) (step limit' room'))
    (hRoom : room ≤ room') :
    Truncates limit (e.missing? ≠ none) (e.eval limit room)
      (e.eval limit' room') := by
  cases room with
  | zero =>
      rw [eval.eq_def]
      exact .of_line (e.keepsShape_eval limit' room')
        (e.growsPrinted_eval limit' room')
        (fun f hLine =>
          startsOpen (line_eq_error_of_map hLine))
  | succ room =>
      cases room' with
      | zero => cases hRoom
      | succ room' =>
          rw [hSucc, hSucc]
          exact hStep (Nat.le_of_succ_le_succ hRoom)

/- Evaluating an expression with less and with more room. -/
theorem Expr.truncates_eval
    (limit limit' : Int)
    (e : Expr)
    (hRoom : room ≤ room') :
    Truncates limit (e.missing? ≠ none) (e.eval limit room)
      (e.eval limit' room') := by
  induction e generalizing room room' with
  | literal t =>
      exact truncates_of_level (fun _ _ => rfl)
        (fun _ => .ofExcept _) hRoom
  | identifier name =>
      exact truncates_of_level (fun _ _ => rfl)
        (fun _ => .refl (keepsShape_lookup name)
          (growsPrinted_lookup name)) hRoom
  | grouping e ih =>
      exact truncates_of_level (fun _ _ => rfl) ih hRoom
  | unary op e ih =>
      refine truncates_of_level (fun _ _ => rfl) ?_ hRoom
      intro room room' hRoom
      exact (ih hRoom).bind fun v => .ofExcept _
  | binary left op right ihLeft ihRight =>
      refine truncates_of_level (fun _ _ => rfl) ?_ hRoom
      intro room room' hRoom
      have hLeft := (ihLeft hRoom).mono fun hOpen =>
        Option.ne_none_of_or hOpen right.missing?
      have hRight := (ihRight hRoom).mono fun hOpen =>
        Option.or_ne_none hOpen left.missing?
      exact hLeft.bind fun x =>
        hRight.bind fun y => .ofExcept _
  | logical left op right ihLeft ihRight =>
      refine truncates_of_level (fun _ _ => rfl) ?_ hRoom
      intro room room' hRoom
      have hLeft := (ihLeft hRoom).mono fun hOpen =>
        Option.ne_none_of_or hOpen right.missing?
      have hRight := (ihRight hRoom).mono fun hOpen =>
        Option.or_ne_none hOpen left.missing?
      exact hLeft.bind
        ((logical left op right).truncates_evalRight op
          hRight)
  | assign target e ih =>
      refine truncates_of_level (fun _ _ => rfl) ?_ hRoom
      intro room room' hRoom
      exact (ih hRoom).bind fun v =>
        .refl (keepsShape_assign target v)
          (growsPrinted_assign target v)
  | hole =>
      exact truncates_of_level (fun _ _ => rfl)
        (fun _ => .throw _) hRoom

/- Evaluating a condition with less and with more room. -/
theorem Expr.truncates_evalCondition
    (limit limit' : Int)
    (c : Expr)
    (hRoom : room ≤ room') :
    Truncates limit (c.missing? ≠ none)
      (c.evalCondition limit room)
      (c.evalCondition limit' room') :=
  (c.truncates_eval limit limit' hRoom).bind
    c.truncates_decide

------------------------------------------------------------
-- Statements and Declarations
------------------------------------------------------------

/- A statement that runs by steps below its level. -/
theorem Stmt.truncates_of_level
    {s : Stmt}
    {step : Int → Nat → Eval Value}
    (hSucc :
      ∀ limit room, s.exec limit (room + 1) = step limit room)
    (hStep :
      ∀ {room room'}, room ≤ room' →
        Truncates limit (s.missing? ≠ none)
          (step limit room) (step limit' room'))
    (hRoom : room ≤ room') :
    Truncates limit (s.missing? ≠ none) (s.exec limit room)
      (s.exec limit' room') := by
  cases room with
  | zero =>
      rw [exec]
      exact .of_line (s.keepsShape_exec limit' room')
        (s.growsPrinted_exec limit' room')
        (fun f hLine => startsOpen hLine)
  | succ room =>
      cases room' with
      | zero => cases hRoom
      | succ room' =>
          rw [hSucc, hSucc]
          exact hStep (Nat.le_of_succ_le_succ hRoom)

mutual

/- Running a statement with less and with more room. -/
theorem Stmt.truncates_exec
    (limit limit' : Int) :
    ∀ (s : Stmt) {room room' : Nat}, room ≤ room' →
      Truncates limit (s.missing? ≠ none)
        (s.exec limit room) (s.exec limit' room')
  | .expression e, _, _, hRoom => by
      refine Stmt.truncates_of_level
        (fun _ _ => by rw [Stmt.exec]) ?_ hRoom
      intro room room' hRoom
      rw [Stmt.missing?]
      exact e.truncates_eval limit limit' hRoom
  | .print e, _, _, hRoom => by
      refine Stmt.truncates_of_level
        (fun _ _ => by rw [Stmt.exec]) ?_ hRoom
      intro room room' hRoom
      rw [Stmt.missing?]
      exact (e.truncates_eval limit limit' hRoom).bind
        fun v => .refl (keepsShape_print v)
          (growsPrinted_print v)
  | .ifThen c s, _, _, hRoom => by
      refine Stmt.truncates_of_level
        (fun _ _ => by rw [Stmt.exec]) ?_ hRoom
      intro room room' hRoom
      rw [Stmt.missing?]
      have hTest :=
        (c.truncates_evalCondition limit limit' hRoom).mono
          fun hOpen => Option.ne_none_of_or hOpen s.missing?
      have hBody :=
        (Stmt.truncates_exec limit limit' s hRoom).mono
          fun hOpen => Option.or_ne_none hOpen c.missing?
      exact hTest.bind (hBody.ite (.pure _))
  | .ifElse c s t, _, _, hRoom => by
      refine Stmt.truncates_of_level
        (fun _ _ => by rw [Stmt.exec]) ?_ hRoom
      intro room room' hRoom
      rw [Stmt.missing?]
      have hTest :=
        (c.truncates_evalCondition limit limit' hRoom).mono
          fun hOpen => Option.ne_none_of_or hOpen
            (s.missing?.or t.missing?)
      have hBody :=
        (Stmt.truncates_exec limit limit' s hRoom).mono
          fun hOpen => Option.or_ne_none
            (Option.ne_none_of_or hOpen t.missing?) c.missing?
      have hOther :=
        (Stmt.truncates_exec limit limit' t hRoom).mono
          fun hOpen => Option.or_ne_none
            (Option.or_ne_none hOpen s.missing?) c.missing?
      exact hTest.bind (hBody.ite hOther)
  | .block ds, _, _, hRoom => by
      refine Stmt.truncates_of_level
        (fun _ _ => by rw [Stmt.exec]) ?_ hRoom
      intro room room' hRoom
      rw [Stmt.missing?]
      exact
        (Decl.truncates_execAll limit limit' ds hRoom).inScope
  | .hole, _, _, hRoom =>
      Stmt.truncates_of_level (fun _ _ => by rw [Stmt.exec])
        (fun _ => .throw _) hRoom

/- Running a declaration with less and with more room. -/
theorem Decl.truncates_exec
    (limit limit' : Int) :
    ∀ (d : Decl) {room room' : Nat}, room ≤ room' →
      Truncates limit (d.missing? ≠ none)
        (d.exec limit room) (d.exec limit' room')
  | .declare name none, _, _, hRoom => by
      rw [Decl.exec, Decl.exec]
      exact .refl (keepsShape_define name .nil)
        (growsPrinted_define name .nil)
  | .declare name (some e), _, _, hRoom => by
      rw [Decl.exec, Decl.exec, Decl.missing?]
      exact (e.truncates_eval limit limit' hRoom).bind
        fun v => .refl (keepsShape_define name v)
          (growsPrinted_define name v)
  | .statement s, _, _, hRoom => by
      rw [Decl.exec, Decl.exec, Decl.missing?]
      exact Stmt.truncates_exec limit limit' s hRoom
  | .hole, _, _, hRoom => by
      rw [Decl.exec, Decl.exec]
      exact .throw _

/- Running declarations in order, with less and more room. -/
theorem Decl.truncates_execAll
    (limit limit' : Int) :
    ∀ (ds : List Decl) {room room' : Nat}, room ≤ room' →
      Truncates limit (Decl.firstMissing? ds ≠ none)
        (Decl.execAll limit ds room)
        (Decl.execAll limit' ds room')
  | [], _, _, hRoom => by
      rw [Decl.execAll, Decl.execAll]
      exact .pure _
  | d :: ds, _, _, hRoom => by
      rw [Decl.execAll, Decl.execAll, Decl.firstMissing?]
      have hFirst :=
        (Decl.truncates_exec limit limit' d hRoom).mono
          fun hOpen => Option.ne_none_of_or hOpen
            (Decl.firstMissing? ds)
      have hMore :=
        (Decl.truncates_execAll limit limit' ds hRoom).mono
          fun hOpen => Option.or_ne_none hOpen d.missing?
      exact hFirst.bind fun _ => hMore

end

end Lox
