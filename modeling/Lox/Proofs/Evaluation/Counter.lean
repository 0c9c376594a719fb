import Lox.Proofs.Evaluation.Truncation

/-
  Counting the levels of nesting.

  An evaluator keeps a count of the levels that it is nested
  in, in place of the room that is left.  A level is counted
  before it is tried, and given up however it ends; one that
  is too deep is counted and never given up, so that a run
  which stops may leave the count one too high.  The count is
  set back before every declaration, and so has no effect on
  the declarations after it.

  Key definitions include:
    * `Evaluator`
    * `Counting.below`
    * `Evaluator.evaluate`
    * `Evaluator.outcome`

  Key theorems include:
    * `Decl.counts_counted`
    * `Evaluator.outcome_eq`
    * `Evaluator.outcome_truncates`
-/

namespace Lox

variable {α β : Type}

------------------------------------------------------------
-- Evaluators
------------------------------------------------------------

/- A machine, and the number of levels that are counted. -/
structure Evaluator where
  machine : Machine
  depth : Int
deriving DecidableEq

/- A step of an evaluator. -/
abbrev Counting :=
  EStateM Stop Evaluator

namespace Counting

/- A step of the machine, which counts no level. -/
def lift
    (step : Eval α) : Counting α :=
  fun ev =>
    match step ev.machine with
    | .ok x m => .ok x ⟨m, ev.depth⟩
    | .error s m => .error s ⟨m, ev.depth⟩

/-
  Count a level, and stop if it is one too many; `line` is
  the line to blame.
-/
def enter
    (limit : Int)
    (line : Except Fault (Option Int)) : Counting Unit :=
  fun ev =>
    if limit < ev.depth + 1 then
      .error (.tooDeep limit line)
        ⟨ev.machine, ev.depth + 1⟩
    else .ok () ⟨ev.machine, ev.depth + 1⟩

/- Give up a level after a step, however it ends. -/
def leaving
    (step : Counting α) : Counting α :=
  fun ev =>
    match step ev with
    | .ok x ev => .ok x ⟨ev.machine, ev.depth - 1⟩
    | .error s ev => .error s ⟨ev.machine, ev.depth - 1⟩

/- A step that is one level further down. -/
def below
    (limit : Int)
    (line : Except Fault (Option Int))
    (step : Counting α) : Counting α := do
  enter limit line
  leaving step

/- A step in a scope of its own, closed however it ends. -/
def inScope
    (step : Counting α) : Counting α :=
  fun ev =>
    let m := ev.machine
    match step ⟨{ m with env := m.env.push }, ev.depth⟩ with
    | .ok x ⟨m, depth⟩ =>
        match m.env.pop with
        | .ok env => .ok x ⟨{ m with env := env }, depth⟩
        | .error f => .error (.fault f) ⟨m, depth⟩
    | .error s ⟨m, depth⟩ =>
        match m.env.pop with
        | .ok env => .error s ⟨{ m with env := env }, depth⟩
        | .error f => .error (.fault f) ⟨m, depth⟩

end Counting

------------------------------------------------------------
-- Trees
------------------------------------------------------------

open Counting

/- Evaluate an expression, counting its levels. -/
def Expr.counted
    (limit : Int) : Expr → Counting Value
  | .literal t =>
      below limit ((Expr.literal t).line.map some)
        (lift (Eval.ofExcept
          (t.literal.value.mapError .fault)))
  | .identifier name =>
      below limit ((Expr.identifier name).line.map some)
        (lift (Eval.lookup name))
  | .grouping e =>
      below limit ((Expr.grouping e).line.map some)
        (e.counted limit)
  | .assign target e =>
      below limit ((Expr.assign target e).line.map some) do
        let v ← e.counted limit
        lift (Eval.assign target v)
  | .unary op e =>
      let whole := Expr.unary op e
      below limit (whole.line.map some) do
        let v ← e.counted limit
        lift (Eval.ofExcept (whole.applyUnary op v))
  | .binary left op right =>
      let whole := Expr.binary left op right
      below limit (whole.line.map some) do
        let x ← left.counted limit
        let y ← right.counted limit
        lift (Eval.ofExcept (whole.applyBinary op x y))
  | .logical left op right =>
      let whole := Expr.logical left op right
      below limit (whole.line.map some) do
        let x ← left.counted limit
        let a ← lift (Eval.ofExcept (whole.truth op.line x))
        if op.kind = .andWord ∧ a = false then
          return .bool false
        else if op.kind = .orWord ∧ a = true then
          return .bool true
        else
          let y ← right.counted limit
          let b ←
            lift (Eval.ofExcept (whole.truth op.line y))
          return .bool b
  | .hole =>
      below limit (Expr.hole.line.map some)
        (throw (.fault .notExpression))

/- Evaluate a condition, counting its levels. -/
def Expr.countedCondition
    (limit : Int)
    (c : Expr) : Counting Bool := do
  let v ← c.counted limit
  lift (c.decide v)

mutual

/- Run a statement, counting its levels. -/
def Stmt.counted
    (limit : Int) : Stmt → Counting Value
  | .expression e =>
      below limit (Stmt.expression e).line (e.counted limit)
  | .print e =>
      below limit (Stmt.print e).line do
        let v ← e.counted limit
        lift (Eval.print v)
  | .ifThen c s =>
      below limit (Stmt.ifThen c s).line do
        if ← c.countedCondition limit then s.counted limit
        else return .nil
  | .ifElse c s t =>
      below limit (Stmt.ifElse c s t).line do
        if ← c.countedCondition limit then s.counted limit
        else t.counted limit
  | .block ds =>
      below limit (Stmt.block ds).line
        (inScope (Decl.countedAll limit ds))
  | .hole =>
      below limit Stmt.hole.line
        (throw (.fault .notStatement))

/- Run a declaration, which is no level of its own. -/
def Decl.counted
    (limit : Int) : Decl → Counting Value
  | .declare name none => lift (Eval.define name .nil)
  | .declare name (some e) => do
      let v ← e.counted limit
      lift (Eval.define name v)
  | .statement s => s.counted limit
  | .hole => throw (.fault (.notDeclaration Hole.decl.name))

/- Run declarations in order. -/
def Decl.countedAll
    (limit : Int) : List Decl → Counting Value
  | [] => return .nil
  | d :: ds => do
      let _ ← d.counted limit
      Decl.countedAll limit ds

end

------------------------------------------------------------
-- Counted Steps
------------------------------------------------------------

namespace Counting

/-
  How a counted run ends, next to the one of the machine: in
  the same way, with the count where it was, or at most one
  too high if the run stops.
-/
inductive Tracks
    (depth : Int) :
    EStateM.Result Stop Evaluator α →
      EStateM.Result Stop Machine α → Prop where
  | ok
      (x : α)
      (m : Machine) :
      Tracks depth (.ok x ⟨m, depth⟩) (.ok x m)
  | error
      {raised : Int}
      (hLow : depth ≤ raised)
      (hHigh : raised ≤ depth + 1)
      (s : Stop)
      (m : Machine) :
      Tracks depth (.error s ⟨m, raised⟩) (.error s m)

/- A run that stops may leave the count where it was. -/
theorem Tracks.stopped
    (depth : Int)
    (s : Stop)
    (m : Machine) :
    @Tracks α depth (.error s ⟨m, depth⟩) (.error s m) :=
  .error (Int.le_refl depth)
    (Int.le_add_one (Int.le_refl depth)) s m

/- Counted steps that do what steps of the machine do. -/
def Counts
    (depth : Int)
    (step : Counting α)
    (plain : Eval α) : Prop :=
  ∀ m, Tracks depth (step ⟨m, depth⟩) (plain m)

variable {depth limit : Int}
variable {step : Counting α} {plain : Eval α}

/- Steps of the machine leave the count alone. -/
theorem counts_lift
    (plain : Eval α) :
    Counts depth (lift plain) plain := by
  intro m
  unfold lift
  dsimp only
  cases plain m with
  | ok x after => exact .ok x after
  | error s after => exact .stopped depth s after

/- Returning leaves the count alone. -/
theorem counts_pure
    (x : α) :
    Counts depth (pure x) (pure x) :=
  fun m => .ok x m

/- Stopping leaves the count alone. -/
theorem counts_throw
    (s : Stop) :
    Counts depth (throw s : Counting α) (throw s) :=
  fun m => .stopped depth s m

/- Steps one after the other count as each of them does. -/
theorem Counts.bind
    {next : α → Counting β}
    {plainNext : α → Eval β}
    (h : Counts depth step plain)
    (hNext : ∀ x, Counts depth (next x) (plainNext x)) :
    Counts depth (step >>= next) (plain >>= plainNext) := by
  intro m
  have hStep := h m
  change Tracks depth (EStateM.bind step next ⟨m, depth⟩)
    (EStateM.bind plain plainNext m)
  unfold EStateM.bind
  generalize step ⟨m, depth⟩ = r, plain m = r' at hStep
  cases hStep with
  | ok x after => exact hNext x after
  | error hLow hHigh s after =>
      exact .error hLow hHigh s after

/- Of two steps, the one that is chosen counts. -/
theorem Counts.ite
    {other : Counting α}
    {plainOther : Eval α}
    (h : Counts depth step plain)
    (hOther : Counts depth other plainOther)
    (b : Bool) :
    Counts depth (if b then step else other)
      (if b then plain else plainOther) := by
  cases b with
  | true => exact h
  | false => exact hOther

/- A scope of its own counts no level. -/
theorem Counts.inScope
    (h : Counts depth step plain) :
    Counts depth (inScope step) (Eval.inScope plain) := by
  intro m
  have hStep := h { m with env := m.env.push }
  unfold Counting.inScope Eval.inScope
  dsimp only
  generalize step ⟨{ m with env := m.env.push }, depth⟩ = r,
    plain { m with env := m.env.push } = r' at hStep
  cases hStep with
  | ok x after =>
      dsimp only
      cases after.env.pop with
      | ok env => exact .ok x _
      | error f => exact .stopped depth _ after
  | error hLow hHigh s after =>
      dsimp only
      cases after.env.pop with
      | ok env => exact .error hLow hHigh s _
      | error f => exact .error hLow hHigh _ after

/- The room that a count leaves. -/
def room
    (limit depth : Int) : Nat :=
  (limit - depth).toNat

/-
  A level is counted exactly if there is room for it.  If it
  is, it has been given up again in the end.
-/
theorem Counts.below
    {line : Except Fault (Option Int)}
    {run : Nat → Eval α}
    (hZero : run 0 = throw (.tooDeep limit line))
    (h :
      Counts (depth + 1) step
        (run (room limit (depth + 1) + 1))) :
    Counts depth (below limit line step)
      (run (room limit depth)) := by
  intro m
  change Tracks depth
    (EStateM.bind (enter limit line)
      (fun _ => leaving step) ⟨m, depth⟩) _
  unfold EStateM.bind enter
  by_cases hRoom : limit < depth + 1
  · have hNone : room limit depth = 0 := by
      unfold room
      omega
    rw [hNone, hZero, if_pos hRoom]
    exact .error (Int.le_add_one (Int.le_refl depth))
      (Int.le_refl (depth + 1)) _ m
  · have hSome :
        room limit depth = room limit (depth + 1) + 1 := by
      unfold room
      omega
    have hStep := h m
    rw [hSome, if_neg hRoom]
    dsimp only
    unfold leaving
    generalize step ⟨m, depth + 1⟩ = r,
      run (room limit (depth + 1) + 1) m = r' at hStep
    cases hStep with
    | ok x after =>
        dsimp only
        rw [Int.add_sub_cancel]
        exact .ok x after
    | @error raised hLow hHigh s after =>
        have hLow' : depth ≤ raised - 1 := by omega
        have hHigh' : raised - 1 ≤ depth + 1 := by omega
        exact .error hLow' hHigh' s after

end Counting

/- Counting, an expression is evaluated as with room. -/
theorem Expr.counts_counted
    (limit : Int)
    (e : Expr)
    (depth : Int) :
    Counts depth (e.counted limit)
      (e.eval limit (room limit depth)) := by
  induction e generalizing depth with
  | literal t => exact .below rfl (counts_lift _)
  | identifier name => exact .below rfl (counts_lift _)
  | grouping e ih => exact .below rfl (ih _)
  | unary op e ih =>
      exact .below rfl
        ((ih _).bind fun v => counts_lift _)
  | binary left op right ihLeft ihRight =>
      exact .below rfl
        ((ihLeft _).bind fun x =>
          (ihRight _).bind fun y => counts_lift _)
  | logical left op right ihLeft ihRight =>
      refine .below rfl ((ihLeft _).bind fun x =>
        (counts_lift _).bind fun a => ?_)
      split
      · exact counts_pure _
      · split
        · exact counts_pure _
        · exact (ihRight _).bind fun y =>
            (counts_lift _).bind fun b => counts_pure _
  | assign target e ih =>
      exact .below rfl
        ((ih _).bind fun v => counts_lift _)
  | hole => exact .below rfl (counts_throw _)

/- Counting, a condition is evaluated as with room. -/
theorem Expr.counts_countedCondition
    (limit : Int)
    (c : Expr)
    (depth : Int) :
    Counts depth (c.countedCondition limit)
      (c.evalCondition limit (room limit depth)) :=
  (c.counts_counted limit depth).bind
    fun v => counts_lift (c.decide v)

/- Without room, a statement is too deep. -/
theorem Stmt.exec_zero
    (limit : Int)
    (s : Stmt) :
    s.exec limit 0 = throw (.tooDeep limit s.line) := by
  rw [exec]

mutual

/- Counting, a statement is run as with room. -/
theorem Stmt.counts_counted
    (limit : Int) :
    ∀ (s : Stmt) (depth : Int),
      Counts depth (s.counted limit)
        (s.exec limit (room limit depth))
  | .expression e, depth => by
      rw [Stmt.counted]
      refine .below (Stmt.exec_zero limit _) ?_
      rw [Stmt.exec]
      exact e.counts_counted limit _
  | .print e, depth => by
      rw [Stmt.counted]
      refine .below (Stmt.exec_zero limit _) ?_
      rw [Stmt.exec]
      exact (e.counts_counted limit _).bind
        fun v => counts_lift _
  | .ifThen c s, depth => by
      rw [Stmt.counted]
      refine .below (Stmt.exec_zero limit _) ?_
      rw [Stmt.exec]
      exact (c.counts_countedCondition limit _).bind
        ((Stmt.counts_counted limit s _).ite
          (counts_pure _))
  | .ifElse c s t, depth => by
      rw [Stmt.counted]
      refine .below (Stmt.exec_zero limit _) ?_
      rw [Stmt.exec]
      exact (c.counts_countedCondition limit _).bind
        ((Stmt.counts_counted limit s _).ite
          (Stmt.counts_counted limit t _))
  | .block ds, depth => by
      rw [Stmt.counted]
      refine .below (Stmt.exec_zero limit _) ?_
      rw [Stmt.exec]
      exact (Decl.counts_countedAll limit ds _).inScope
  | .hole, depth => by
      rw [Stmt.counted]
      refine .below (Stmt.exec_zero limit _) ?_
      rw [Stmt.exec]
      exact counts_throw _

/- Counting, a declaration is run as with room. -/
theorem Decl.counts_counted
    (limit : Int) :
    ∀ (d : Decl) (depth : Int),
      Counts depth (d.counted limit)
        (d.exec limit (room limit depth))
  | .declare name none, depth => by
      rw [Decl.counted, Decl.exec]
      exact counts_lift _
  | .declare name (some e), depth => by
      rw [Decl.counted, Decl.exec]
      exact (e.counts_counted limit depth).bind
        fun v => counts_lift _
  | .statement s, depth => by
      rw [Decl.counted, Decl.exec]
      exact Stmt.counts_counted limit s depth
  | .hole, depth => by
      rw [Decl.counted, Decl.exec]
      exact counts_throw _

/- Counting, declarations are run as with room. -/
theorem Decl.counts_countedAll
    (limit : Int) :
    ∀ (ds : List Decl) (depth : Int),
      Counts depth (Decl.countedAll limit ds)
        (Decl.execAll limit ds (room limit depth))
  | [], depth => by
      rw [Decl.countedAll, Decl.execAll]
      exact counts_pure _
  | d :: ds, depth => by
      rw [Decl.countedAll, Decl.execAll]
      exact (Decl.counts_counted limit d depth).bind
        fun _ => Decl.counts_countedAll limit ds depth

end

------------------------------------------------------------
-- Whole Declarations
------------------------------------------------------------

namespace Evaluator

variable {ev : Evaluator}

/- Run a declaration, counting from no level at all. -/
def evaluate
    (limit : Int)
    (d : Decl) : Counting Value :=
  fun ev => d.counted limit ⟨ev.machine, 0⟩

/- What is seen of a run: everything but the count. -/
def outcome
    (ev : Evaluator)
    (limit : Int)
    (d : Decl) : EStateM.Result Stop Machine Value :=
  match evaluate limit d ev with
  | .ok v ev => .ok v ev.machine
  | .error s ev => .error s ev.machine

/- The evaluator after a declaration, however it ended. -/
def after
    (ev : Evaluator)
    (limit : Int)
    (d : Decl) : Evaluator :=
  match evaluate limit d ev with
  | .ok _ ev => ev
  | .error _ ev => ev

/- The evaluator after several declarations. -/
def afterAll
    (ev : Evaluator)
    (limit : Int)
    (ds : List Decl) : Evaluator :=
  ds.foldl (fun ev d => ev.after limit d) ev

/-
  Whatever was counted before, a declaration is run as with
  all the room of its limit, and the count is left at none,
  or at one if the run stops.
-/
theorem tracks_evaluate
    (limit : Int)
    (d : Decl)
    (ev : Evaluator) :
    Tracks 0 (evaluate limit d ev)
      (d.evaluate limit ev.machine) := by
  have hCounted := d.counts_counted limit 0 ev.machine
  unfold room at hCounted
  rw [Int.sub_zero] at hCounted
  exact hCounted

/- What is seen of a run does not depend on the count. -/
theorem outcome_eq
    (ev : Evaluator)
    (limit : Int)
    (d : Decl) :
    ev.outcome limit d = d.evaluate limit ev.machine := by
  have hTracks := tracks_evaluate limit d ev
  unfold outcome
  generalize evaluate limit d ev = r,
    d.evaluate limit ev.machine = r' at hTracks
  cases hTracks <;> rfl

/- Nor does the machine that the next declaration meets. -/
theorem machine_after
    (ev : Evaluator)
    (limit : Int)
    (d : Decl) :
    (ev.after limit d).machine =
      Eval.final (d.evaluate limit ev.machine) := by
  have hTracks := tracks_evaluate limit d ev
  unfold after
  generalize evaluate limit d ev = r,
    d.evaluate limit ev.machine = r' at hTracks
  cases hTracks <;> rfl

/- Declarations leave scopes, and no more of them. -/
theorem sameShape_afterAll
    (hScopes : ev.machine.env.scopes ≠ [])
    (limit : Int)
    (ds : List Decl) :
    Environment.SameShape ev.machine.env
      (ev.afterAll limit ds).machine.env := by
  induction ds generalizing ev with
  | nil => exact .refl _
  | cons d ds ih =>
      have hFirst :
          Environment.SameShape ev.machine.env
            (ev.after limit d).machine.env := by
        rw [machine_after]
        exact d.keepsShape_exec limit _ ev.machine hScopes
      exact hFirst.trans (ih (hFirst.scopes_ne_nil hScopes))

end Evaluator

------------------------------------------------------------
-- Lower Limits
------------------------------------------------------------

/-
  A run from a machine that was cut off, next to one that was
  not: it is too deep, and the texts that it has printed are
  the first ones that the other prints.
-/
def Eval.CutOff
    (limit : Int)
    (m : Machine)
    (r r' : EStateM.Result Stop Machine α) : Prop :=
  TooDeep limit r ∧
    ∃ texts more : List String,
      (final r).printed = m.printed ++ texts ∧
        (final r').printed = m.printed ++ texts ++ more

/- With a lower limit, a complete declaration is cut off. -/
theorem Decl.eq_or_cutOff_evaluate
    {limit limit' : Int}
    {d : Decl}
    {m : Machine}
    (hLimit : limit ≤ limit')
    (hComplete : d.missing? = none)
    (hScopes : m.env.scopes ≠ []) :
    d.evaluate limit m = d.evaluate limit' m ∨
      Eval.CutOff limit m (d.evaluate limit m)
        (d.evaluate limit' m) := by
  have hTruncates :=
    (d.truncates_exec limit limit'
      (Int.toNat_le_toNat hLimit)).truncated m hScopes
  have hGrows :=
    d.growsPrinted_exec limit limit.toNat m
  unfold evaluate
  generalize d.exec limit limit.toNat m = r,
    d.exec limit' limit'.toNat m = r' at hTruncates hGrows ⊢
  cases hTruncates with
  | same => exact .inl rfl
  | tooDeep hPrinted =>
      rcases hGrows with ⟨texts, hTexts⟩
      rcases hPrinted with ⟨more, hMore⟩
      refine .inr ⟨⟨_, _, rfl⟩, texts, more, hTexts.symm, ?_⟩
      rw [hTexts]
      exact hMore.symm
  | unplaced hOpen => exact absurd hComplete hOpen

/-
  After any earlier declarations, whether they succeeded or
  stopped, a lower limit has no effect on a declaration but
  to cut it off.
-/
theorem Evaluator.outcome_truncates
    {limit limit' : Int}
    {d : Decl}
    {ev other : Evaluator}
    {earlier : List Decl}
    (hLimit : limit ≤ limit')
    (hComplete : d.missing? = none)
    (hScopes : ev.machine.env.scopes ≠ [])
    (hOther :
      other.machine = (ev.afterAll limit earlier).machine) :
    let narrow := (ev.afterAll limit earlier).outcome limit d
    let wide := other.outcome limit' d
    narrow = d.evaluate limit other.machine ∧
      wide = d.evaluate limit' other.machine ∧
      (narrow = wide ∨
        Eval.CutOff limit other.machine narrow wide) := by
  have hAfter : other.machine.env.scopes ≠ [] := by
    rw [hOther]
    exact (sameShape_afterAll hScopes limit
      earlier).scopes_ne_nil hScopes
  dsimp only
  rw [outcome_eq, outcome_eq, ← hOther]
  exact ⟨rfl, rfl,
    Decl.eq_or_cutOff_evaluate hLimit hComplete hAfter⟩

/- The truth value that is true, negated twice. -/
def Decl.negatedTwice : Decl :=
  .statement (.expression (.unary ⟨.bang, "!", .absent, 1⟩
    (.unary ⟨.bang, "!", .absent, 1⟩
      (.literal ⟨.trueWord, "true", .bool true, 1⟩))))

/- A block that prints a truth value and its negation. -/
def Decl.printsBoth : Decl :=
  .statement (.block
    [.statement (.print
        (.literal ⟨.trueWord, "true", .bool true, 1⟩)),
      .statement (.print (.unary ⟨.bang, "!", .absent, 1⟩
        (.literal ⟨.trueWord, "true", .bool true, 1⟩)))])

/-
  An earlier declaration was too deep, and has left the count
  one too high.  The block after it is cut off between its
  two texts, as it would be without that declaration.
-/
theorem Evaluator.outcome_truncates_printsBoth :
    let start : Evaluator := ⟨⟨.fresh, []⟩, 0⟩
    let ev := start.afterAll 3 [Decl.negatedTwice]
    (3 : Int) ≤ 4 ∧ Decl.printsBoth.missing? = none ∧
      start.machine.env.scopes ≠ [] ∧
      start.machine = ev.machine ∧ ev.depth = 1 ∧
      Eval.CutOff 3 start.machine
        (ev.outcome 3 Decl.printsBoth)
        (start.outcome 4 Decl.printsBoth) ∧
      (Eval.final (ev.outcome 3 Decl.printsBoth)).printed =
        ["true"] := by
  have hComplete : Decl.printsBoth.missing? = none := by
    decide +kernel
  have hStart :
      (⟨⟨.fresh, []⟩, 0⟩ : Evaluator).machine =
        (afterAll ⟨⟨.fresh, []⟩, 0⟩ 3
          [Decl.negatedTwice]).machine := by
    decide +kernel
  rcases
      @outcome_truncates 3 4 _ _ _ _ (by decide) hComplete
        (List.cons_ne_nil _ _) hStart with
    ⟨-, -, hSame | hCutOff⟩
  · have hPrinted := congrArg
      (fun r => (Eval.final r).printed) hSame
    exact absurd hPrinted (by decide +kernel)
  · exact ⟨by decide, hComplete, List.cons_ne_nil _ _, hStart,
      by decide +kernel, hCutOff, by decide +kernel⟩

end Lox
