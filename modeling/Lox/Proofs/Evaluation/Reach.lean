import Lox.Proofs.Evaluation.Stops

/-
  How deep evaluation gets.

  The height of a tree bounds how deep evaluation can get;
  what it reaches depends on the machine, as a branch or an
  operand may never be run.  Evaluation with room for what
  it reaches ends as it would without a limit, and with less
  room it stops for want of room.

  Key definitions include:
    * `Expr.height`, `Stmt.height`, `Decl.height`
    * `Expr.reach`, `Stmt.reach`, `Decl.reach`
    * `Eval.Reaches`

  Key theorems include:
    * `Expr.reaches`
    * `Stmt.reaches`
    * `Decl.reaches`
-/

namespace Lox

variable {α β : Type}

------------------------------------------------------------
-- Heights
------------------------------------------------------------

/- The levels of an expression. -/
def Expr.height : Expr → Nat
  | literal _ => 1
  | identifier _ => 1
  | grouping e => e.height + 1
  | unary _ e => e.height + 1
  | binary left _ right => max left.height right.height + 1
  | logical left _ right => max left.height right.height + 1
  | assign _ e => e.height + 1
  | hole => 1

mutual

/- The levels of a statement. -/
def Stmt.height : Stmt → Nat
  | .expression e => e.height + 1
  | .print e => e.height + 1
  | .ifThen c s => max c.height s.height + 1
  | .ifElse c s t =>
      max c.height (max s.height t.height) + 1
  | .block ds => Decl.heightAll ds + 1
  | .hole => 1

/- The levels of a declaration; it adds none of its own. -/
def Decl.height : Decl → Nat
  | .declare _ none => 0
  | .declare _ (some e) => e.height
  | .statement s => s.height
  | .hole => 0

/- The levels of several declarations. -/
def Decl.heightAll : List Decl → Nat
  | [] => 0
  | d :: ds => max d.height (Decl.heightAll ds)

end

------------------------------------------------------------
-- Steps with Limited Room
------------------------------------------------------------

namespace Eval

/- A run that stopped because it was nested too deep. -/
def TooDeep
    (limit : Int)
    (r : EStateM.Result Stop Machine α) : Prop :=
  ∃ line m,
    r = .error (.error ⟨line, .nestingTooDeep limit⟩) m

/-
  The deeper of two levels: the one reached by a first step,
  and the one reached by the next if the first succeeds.
-/
def deeper
    (step : Eval α)
    (first : Machine → Nat)
    (next : α → Machine → Nat)
    (m : Machine) : Nat :=
  match step m with
  | .ok x after => max (first m) (next x after)
  | .error _ _ => first m

/- Nothing is deeper than the first step if nothing follows. -/
theorem deeper_zero
    (step : Eval α)
    (first : Machine → Nat) :
    deeper step first (fun _ _ => 0) = first := by
  funext m
  unfold deeper
  split <;> simp

/-
  Steps with more or less room, and what they amount to.  A
  step with room for what it reaches is the unlimited run,
  which is never too deep; one with less room is too deep.
-/
structure Reaches
    (limit : Int)
    (step : Nat → Eval α)
    (run : Eval α)
    (reach : Machine → Nat) : Prop where
  keepsShape : KeepsShape run
  isShallow : StopsWithin Stop.IsShallow run
  run_of_le :
    ∀ m room, m.env.scopes ≠ [] → reach m ≤ room →
      step room m = run m
  tooDeep_of_lt :
    ∀ m room, m.env.scopes ≠ [] → room < reach m →
      TooDeep limit (step room m)

namespace Reaches

variable {limit : Int}
variable {step : Nat → Eval α} {run : Eval α}
variable {reach : Machine → Nat}

/- A step that needs no room. -/
theorem of_shallow
    (hShape : KeepsShape run)
    (h : StopsWithin Stop.IsShallow run) :
    Reaches limit (fun _ => run) run (fun _ => 0) where
  keepsShape := hShape
  isShallow := h
  run_of_le _ _ _ _ := rfl
  tooDeep_of_lt _ _ _ hRoom :=
    absurd hRoom (Nat.not_lt_zero _)

/- Two steps reach the deeper of two levels. -/
theorem bind
    {next : α → Nat → Eval β}
    {nextRun : α → Eval β}
    {nextReach : α → Machine → Nat}
    (h : Reaches limit step run reach)
    (hNext :
      ∀ x, Reaches limit (next x) (nextRun x)
        (nextReach x)) :
    Reaches limit
      (fun room => step room >>= fun x => next x room)
      (run >>= nextRun)
      (deeper run reach nextReach) where
  keepsShape :=
    h.keepsShape.bind fun x => (hNext x).keepsShape
  isShallow :=
    h.isShallow.bind h.keepsShape
      fun x => (hNext x).isShallow
  run_of_le m room hScopes hRoom := by
    have hShape := h.keepsShape m hScopes
    unfold deeper at hRoom
    rw [bind_apply, bind_apply]
    cases hRun : run m with
    | ok x after =>
        rw [hRun] at hRoom hShape
        dsimp only at hRoom
        rw [h.run_of_le m room hScopes (by omega), hRun]
        exact (hNext x).run_of_le after room
          (hShape.scopes_ne_nil hScopes) (by omega)
    | error s after =>
        rw [hRun] at hRoom
        rw [h.run_of_le m room hScopes hRoom, hRun]
  tooDeep_of_lt m room hScopes hRoom := by
    have hShape := h.keepsShape m hScopes
    unfold deeper at hRoom
    rw [bind_apply]
    by_cases hFirst : room < reach m
    · rcases h.tooDeep_of_lt m room hScopes hFirst with
        ⟨line, after, hDeep⟩
      rw [hDeep]
      exact ⟨line, after, rfl⟩
    · cases hRun : run m with
      | ok x after =>
          rw [hRun] at hRoom hShape
          dsimp only at hRoom
          rw [h.run_of_le m room hScopes (by omega), hRun]
          exact (hNext x).tooDeep_of_lt after room
            (hShape.scopes_ne_nil hScopes) (by omega)
      | error s after =>
          rw [hRun] at hRoom
          exact absurd hRoom hFirst

/- A tree takes a level for itself. -/
theorem level
    {whole : Nat → Eval α}
    (h : Reaches limit step run reach)
    (hZero : ∀ m, TooDeep limit (whole 0 m))
    (hSucc : ∀ room, whole (room + 1) = step room) :
    Reaches limit whole run (fun m => reach m + 1) where
  keepsShape := h.keepsShape
  isShallow := h.isShallow
  run_of_le m room hScopes hRoom := by
    cases room with
    | zero => exact absurd hRoom (Nat.not_succ_le_zero _)
    | succ room =>
        rw [hSucc]
        exact h.run_of_le m room hScopes (by omega)
  tooDeep_of_lt m room hScopes hRoom := by
    cases room with
    | zero => exact hZero m
    | succ room =>
        rw [hSucc]
        exact h.tooDeep_of_lt m room hScopes (by omega)

/- Other scopes do not make an outcome too deep. -/
theorem tooDeep_withScopes
    {env : Environment}
    {r : EStateM.Result Stop Machine α} :
    TooDeep limit (withScopes env r) ↔ TooDeep limit r := by
  constructor
  · rintro ⟨line, m, h⟩
    cases r with
    | ok x after => cases h
    | error s after =>
        cases h
        exact ⟨line, after, rfl⟩
  · rintro ⟨line, m, rfl⟩
    exact ⟨line, _, rfl⟩

/- A scope of its own does not take a level. -/
theorem inScope
    (h : Reaches limit step run reach)
    (hStep : ∀ room, KeepsShape (step room)) :
    Reaches limit (fun room => Eval.inScope (step room))
      (Eval.inScope run)
      (fun m => reach { m with env := m.env.push }) where
  keepsShape := h.keepsShape.inScope
  isShallow := h.isShallow.inScope h.keepsShape
  run_of_le m room hScopes hRoom := by
    have hRun := h.run_of_le _ room
      (by simp [Environment.push]) hRoom
    unfold Eval.inScope
    rw [hRun]
  tooDeep_of_lt m room hScopes hRoom := by
    rcases inScope_apply hScopes (hStep room) with
      ⟨env, -, hRun⟩
    rw [hRun, tooDeep_withScopes]
    exact h.tooDeep_of_lt _ room
      (by simp [Environment.push]) hRoom

/- The run is what any step with enough room is. -/
theorem of_height
    {step : Int → Nat → Eval α}
    {height : Nat}
    (h : ∀ limit, Reaches limit (step limit) run reach)
    (hHeight : ∀ m, reach m ≤ height) :
    Reaches limit (step limit) (step 0 height) reach where
  keepsShape m hScopes := by
    rw [(h 0).run_of_le m height hScopes (hHeight m)]
    exact (h 0).keepsShape m hScopes
  isShallow m hScopes := by
    rw [(h 0).run_of_le m height hScopes (hHeight m)]
    exact (h 0).isShallow m hScopes
  run_of_le m room hScopes hRoom := by
    rw [(h 0).run_of_le m height hScopes (hHeight m)]
    exact (h limit).run_of_le m room hScopes hRoom
  tooDeep_of_lt := (h limit).tooDeep_of_lt

end Reaches

/- No more than the deeper of two levels is reached. -/
theorem deeper_le
    {step : Eval α}
    {first : Machine → Nat}
    {next : α → Machine → Nat}
    {n : Nat}
    (hFirst : ∀ m, first m ≤ n)
    (hNext : ∀ x m, next x m ≤ n)
    (m : Machine) :
    deeper step first next m ≤ n := by
  unfold deeper
  split
  · exact Nat.max_le.mpr ⟨hFirst m, hNext _ _⟩
  · exact hFirst m

/- The first level is reached in any case. -/
theorem le_deeper
    (step : Eval α)
    (first : Machine → Nat)
    (next : α → Machine → Nat)
    (m : Machine) :
    first m ≤ deeper step first next m := by
  unfold deeper
  split
  · exact Nat.le_max_left _ _
  · exact Nat.le_refl _

end Eval

open Eval hiding ofExcept

------------------------------------------------------------
-- Expressions
------------------------------------------------------------

/- Evaluation of an expression without a limit. -/
def Expr.run
    (e : Expr) : Eval Value :=
  e.eval 0 e.height

/-
  Whether a logical operator goes on to its right operand
  after a value of the left one.
-/
def Token.goesOn
    (op : Token) : Value → Bool
  | .bool a =>
      !(op.kind == .andWord && !a || op.kind == .orWord && a)
  | _ => false

/- The level that evaluation of an expression reaches. -/
def Expr.reach : Expr → Machine → Nat
  | literal _, _ => 1
  | identifier _, _ => 1
  | grouping e, m => e.reach m + 1
  | unary _ e, m => e.reach m + 1
  | binary left _ right, m =>
      deeper left.run left.reach (fun _ => right.reach) m + 1
  | logical left op right, m =>
      deeper left.run left.reach
        (fun x after =>
          if op.goesOn x then right.reach after else 0) m + 1
  | assign _ e, m => e.reach m + 1
  | hole, _ => 1

/- Evaluation gets no deeper than the expression is high. -/
theorem Expr.reach_le_height
    (e : Expr)
    (m : Machine) :
    e.reach m ≤ e.height := by
  induction e generalizing m with
  | literal t => exact Nat.le_refl _
  | identifier name => exact Nat.le_refl _
  | grouping e ih => exact Nat.succ_le_succ (ih m)
  | unary op e ih => exact Nat.succ_le_succ (ih m)
  | binary left op right ihLeft ihRight =>
      apply Nat.succ_le_succ
      apply deeper_le
      · exact fun m =>
          Nat.le_trans (ihLeft m) (Nat.le_max_left _ _)
      · exact fun _ m =>
          Nat.le_trans (ihRight m) (Nat.le_max_right _ _)
  | logical left op right ihLeft ihRight =>
      apply Nat.succ_le_succ
      apply deeper_le
      · exact fun m =>
          Nat.le_trans (ihLeft m) (Nat.le_max_left _ _)
      · intro x m
        split
        · exact Nat.le_trans (ihRight m)
            (Nat.le_max_right _ _)
        · exact Nat.zero_le _
  | assign target e ih => exact Nat.succ_le_succ (ih m)
  | hole => exact Nat.le_refl _

/- Without room, a complete expression is too deep. -/
theorem Expr.tooDeep_eval_zero
    {e : Expr}
    (h : e.missing? = none)
    (limit : Int)
    (m : Machine) :
    TooDeep limit (e.eval limit 0 m) := by
  rcases exists_tooDeep_eq h limit with ⟨line, hStop⟩
  rw [eval, hStop]
  exact ⟨line, m, rfl⟩

/- An expression that evaluates by steps below its level. -/
theorem Expr.reaches_of_level
    {e : Expr}
    {step : Int → Nat → Eval Value}
    {run : Eval Value}
    {reach : Machine → Nat}
    (h : e.missing? = none)
    (hStep : ∀ limit, Reaches limit (step limit) run reach)
    (hSucc :
      ∀ limit room, e.eval limit (room + 1) = step limit room)
    (hReach : e.reach = fun m => reach m + 1)
    (limit : Int) :
    Reaches limit (e.eval limit) e.run e.reach := by
  have hWhole : ∀ limit,
      Reaches limit (e.eval limit) run e.reach := by
    intro limit
    rw [hReach]
    exact (hStep limit).level (tooDeep_eval_zero h limit)
      (hSucc limit)
  exact Reaches.of_height hWhole e.reach_le_height

/- Only truth values are true or false. -/
theorem Expr.truth_eq_ok_iff
    {e : Expr}
    {line : Int}
    {v : Value}
    {a : Bool} :
    e.truth line v = .ok a ↔ v = .bool a := by
  cases v with
  | bool b => simp [truth]
  | _ =>
      simp only [truth, blame, reduceCtorEq, iff_false]
      split <;> simp

/- The right operand is run only if the operator goes on. -/
theorem Expr.evalRight_of_goesOn
    (whole : Expr)
    {op : Token}
    (right : Eval Value)
    {x : Value}
    (h : op.goesOn x = true) :
    whole.evalRight op right x = do
      let y ← right
      let b ← Eval.ofExcept (whole.truth op.line y)
      return .bool b := by
  cases x with
  | bool a =>
      have hAnd : ¬ (op.kind = .andWord ∧ a = false) := by
        rintro ⟨hKind, rfl⟩
        simp [Token.goesOn, hKind] at h
      have hOr : ¬ (op.kind = .orWord ∧ a = true) := by
        rintro ⟨hKind, rfl⟩
        simp [Token.goesOn, hKind] at h
      funext m
      unfold evalRight
      rw [bind_apply]
      change (if _ then _ else if _ then _ else _ :
        Eval Value) m = _
      rw [if_neg hAnd, if_neg hOr]
  | _ => cases h

/- Otherwise the left operand decides, or stops the run. -/
theorem Expr.evalRight_of_not_goesOn
    (whole : Expr)
    {op : Token}
    (right : Eval Value)
    {x : Value}
    (h : op.goesOn x = false) :
    whole.evalRight op right x =
      Eval.ofExcept ((whole.truth op.line x).map .bool) := by
  funext m
  unfold evalRight
  rw [bind_apply]
  cases hTruth : whole.truth op.line x with
  | error s => rfl
  | ok a =>
      rw [truth_eq_ok_iff] at hTruth
      subst hTruth
      change (if _ then _ else if _ then _ else _ :
        Eval Value) m = _
      split
      · rename_i hAnd
        rw [hAnd.2]
        rfl
      · rename_i hAnd
        split
        · rename_i hOr
          rw [hOr.2]
          rfl
        · rename_i hOr
          simp_all [Token.goesOn]

/-
  What follows the left operand reaches as deep as the right
  one if the operator goes on to it, and no level else.
-/
theorem Expr.reaches_evalRight
    {right : Expr}
    {limit : Int}
    (h : Reaches limit (right.eval limit) right.run right.reach)
    (whole : Expr)
    (op : Token)
    (x : Value) :
    Reaches limit
      (fun room =>
        whole.evalRight op (right.eval limit room) x)
      (whole.evalRight op right.run x)
      (fun m => if op.goesOn x then right.reach m else 0) := by
  cases hGo : op.goesOn x with
  | true =>
      have hTruth : ∀ y,
          StopsWithin Stop.IsShallow
            (Eval.ofExcept (whole.truth op.line y)) :=
        fun y => stopsWithin_ofExcept fun s hStop =>
          (blames_of_truth hStop).isShallow
      have hRight := h.bind fun y =>
        (Reaches.of_shallow (keepsShape_ofExcept _)
          (hTruth y)).bind fun b =>
            Reaches.of_shallow
              (keepsShape_pure (Value.bool b))
              (stopsWithin_pure (Value.bool b))
      simp only [deeper_zero] at hRight
      simp only [evalRight_of_goesOn whole _ hGo]
      exact hRight
  | false =>
      simp only [evalRight_of_not_goesOn whole _ hGo]
      refine Reaches.of_shallow (keepsShape_ofExcept _)
        (stopsWithin_ofExcept fun s hStop => ?_)
      exact (blames_of_truth
        (eq_error_of_map_eq_error hStop)).isShallow

/-
  A complete expression ends as it would without a limit if
  there is room for what it reaches, and else is too deep.
-/
theorem Expr.reaches
    {e : Expr}
    (h : e.missing? = none)
    (limit : Int) :
    Reaches limit (e.eval limit) e.run e.reach := by
  induction e generalizing limit with
  | literal t =>
      refine reaches_of_level h (fun _ =>
        Reaches.of_shallow (keepsShape_ofExcept _)
          (stopsWithin_ofExcept ?_))
        (fun _ _ => rfl) rfl limit
      intro s hStop
      cases hValue : t.literal.value with
      | ok v =>
          rw [hValue] at hStop
          cases hStop
      | error f =>
          rw [hValue] at hStop
          cases hStop
          exact Stop.isShallow_fault f
  | identifier name =>
      exact reaches_of_level h (fun _ =>
        Reaches.of_shallow (keepsShape_lookup name)
          (stopsWithin_lookup
            (Stop.isShallow_undefinedVariable _ _)))
        (fun _ _ => rfl) rfl limit
  | grouping e ih =>
      exact reaches_of_level h (ih h) (fun _ _ => rfl) rfl
        limit
  | unary op e ih =>
      have hApply : ∀ v,
          StopsWithin Stop.IsShallow (Eval.ofExcept
            ((Expr.unary op e).applyUnary op v)) := by
        intro v
        apply stopsWithin_ofExcept
        intro s hStop
        rcases blames_of_applyUnary hStop with hBlames | hOp
        · exact hBlames.isShallow
        · rw [hOp.2]
          exact Stop.isShallow_fault _
      have hStep := fun limit => (ih h limit).bind fun v =>
        Reaches.of_shallow (keepsShape_ofExcept _) (hApply v)
      simp only [deeper_zero] at hStep
      exact reaches_of_level h hStep (fun _ _ => rfl) rfl
        limit
  | binary left op right ihLeft ihRight =>
      rcases Option.or_eq_none_iff.mp h with ⟨hLeft, hRight⟩
      have hApply : ∀ x y,
          StopsWithin Stop.IsShallow (Eval.ofExcept
            ((Expr.binary left op right).applyBinary
              op x y)) := by
        intro x y
        apply stopsWithin_ofExcept
        intro s hStop
        rcases blames_of_applyBinary hStop with hBlames | hOp
        · exact hBlames.isShallow
        · rw [hOp.2]
          exact Stop.isShallow_fault _
      have hStep := fun limit =>
        (ihLeft hLeft limit).bind fun x =>
          (ihRight hRight limit).bind fun y =>
            Reaches.of_shallow (keepsShape_ofExcept _)
              (hApply x y)
      simp only [deeper_zero] at hStep
      exact reaches_of_level h hStep (fun _ _ => rfl) rfl
        limit
  | logical left op right ihLeft ihRight =>
      rcases Option.or_eq_none_iff.mp h with ⟨hLeft, hRight⟩
      have hStep := fun limit =>
        (ihLeft hLeft limit).bind fun x =>
          reaches_evalRight (ihRight hRight limit)
            (logical left op right) op x
      exact reaches_of_level h hStep (fun _ _ => rfl) rfl
        limit
  | assign target e ih =>
      have hStep := fun limit => (ih h limit).bind fun v =>
        Reaches.of_shallow (keepsShape_assign target v)
          (stopsWithin_assign v
            (Stop.isShallow_undefinedVariable _ _))
      simp only [deeper_zero] at hStep
      exact reaches_of_level h hStep (fun _ _ => rfl) rfl
        limit
  | hole => cases h

end Lox
