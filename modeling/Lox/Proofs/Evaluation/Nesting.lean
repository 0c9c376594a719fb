import Lox.Proofs.Evaluation.Reach

/-
  How deep running statements and declarations gets.

  What is reached lies between two heights that do not
  depend on the machine: that of the first parts, which are
  run in any case, and that of the tree as a whole.

  Key definitions include:
    * `Stmt.reach`, `Decl.reach`
    * `Expr.spine`, `Stmt.spine`, `Decl.spine`

  Key theorems include:
    * `Stmt.reaches`
    * `Decl.reaches`
    * `Decl.tooDeep_evaluate_iff`
    * `Decl.spine_le_reach`
-/

namespace Lox

open Eval hiding ofExcept

------------------------------------------------------------
-- Conditions
------------------------------------------------------------

/- Evaluation of a condition without a limit. -/
def Expr.runCondition
    (c : Expr) : Eval Bool :=
  c.evalCondition 0 c.height

/- A condition reaches as deep as its expression. -/
theorem Expr.reaches_evalCondition
    {c : Expr}
    (h : c.missing? = none)
    (limit : Int) :
    Reaches limit (c.evalCondition limit) c.runCondition
      c.reach := by
  have hStep : ∀ limit,
      Reaches limit (c.evalCondition limit)
        (c.run >>= c.decide) c.reach := by
    intro limit
    have hBind := (reaches h limit).bind fun v =>
      Reaches.of_shallow (c.keepsShape_decide v)
        (stopsWithin_decide (fun _ hBlames =>
          hBlames.isShallow) (fun f _ =>
            Stop.isShallow_fault f) v)
    rw [deeper_zero] at hBind
    exact hBind
  exact Reaches.of_height hStep c.reach_le_height

------------------------------------------------------------
-- Statements and Declarations
------------------------------------------------------------

/- Running a statement without a limit. -/
def Stmt.run
    (s : Stmt) : Eval Value :=
  s.exec 0 s.height

/- Running a declaration without a limit. -/
def Decl.run
    (d : Decl) : Eval Value :=
  d.exec 0 d.height

/- Running several declarations without a limit. -/
def Decl.runAll
    (ds : List Decl) : Eval Value :=
  Decl.execAll 0 ds (Decl.heightAll ds)

mutual

/- The level that running a statement reaches. -/
def Stmt.reach : Stmt → Machine → Nat
  | .expression e, m => e.reach m + 1
  | .print e, m => e.reach m + 1
  | .ifThen c s, m =>
      deeper c.runCondition c.reach
        (fun b after => if b then s.reach after else 0) m + 1
  | .ifElse c s t, m =>
      deeper c.runCondition c.reach
        (fun b after =>
          if b then s.reach after else t.reach after) m + 1
  | .block ds, m =>
      Decl.reachAll ds { m with env := m.env.push } + 1
  | .hole, _ => 1

/- The level that running a declaration reaches. -/
def Decl.reach : Decl → Machine → Nat
  | .declare _ none, _ => 0
  | .declare _ (some e), m => e.reach m
  | .statement s, m => s.reach m
  | .hole, _ => 0

/- The level that running several declarations reaches. -/
def Decl.reachAll : List Decl → Machine → Nat
  | [], _ => 0
  | d :: ds, m =>
      deeper d.run d.reach (fun _ => Decl.reachAll ds) m

end

mutual

/- Running gets no deeper than the statement is high. -/
theorem Stmt.reach_le_height :
    ∀ (s : Stmt) (m : Machine), s.reach m ≤ s.height
  | .expression e, m => by
      rw [Stmt.reach, Stmt.height]
      exact Nat.succ_le_succ (e.reach_le_height m)
  | .print e, m => by
      rw [Stmt.reach, Stmt.height]
      exact Nat.succ_le_succ (e.reach_le_height m)
  | .ifThen c s, m => by
      rw [Stmt.reach, Stmt.height]
      apply Nat.succ_le_succ
      apply deeper_le
      · intro m
        exact Nat.le_trans (c.reach_le_height m)
          (Nat.le_max_left _ _)
      · intro b m
        have hBody := s.reach_le_height m
        split
        · omega
        · omega
  | .ifElse c s t, m => by
      rw [Stmt.reach, Stmt.height]
      apply Nat.succ_le_succ
      apply deeper_le
      · intro m
        exact Nat.le_trans (c.reach_le_height m)
          (Nat.le_max_left _ _)
      · intro b m
        have hBody := s.reach_le_height m
        have hOther := t.reach_le_height m
        split
        · omega
        · omega
  | .block ds, m => by
      rw [Stmt.reach, Stmt.height]
      exact Nat.succ_le_succ (Decl.reachAll_le_heightAll ds _)
  | .hole, _ => Nat.le_refl _

/- Running gets no deeper than the declaration is high. -/
theorem Decl.reach_le_height :
    ∀ (d : Decl) (m : Machine), d.reach m ≤ d.height
  | .declare name none, _ => Nat.le_refl _
  | .declare name (some e), m => by
      rw [Decl.reach, Decl.height]
      exact e.reach_le_height m
  | .statement s, m => by
      rw [Decl.reach, Decl.height]
      exact s.reach_le_height m
  | .hole, _ => Nat.le_refl _

/- Running gets no deeper than the highest declaration. -/
theorem Decl.reachAll_le_heightAll :
    ∀ (ds : List Decl) (m : Machine),
      Decl.reachAll ds m ≤ Decl.heightAll ds
  | [], _ => Nat.le_refl _
  | d :: ds, m => by
      rw [Decl.reachAll, Decl.heightAll]
      apply deeper_le
      · intro m
        exact Nat.le_trans (d.reach_le_height m)
          (Nat.le_max_left _ _)
      · intro _ m
        exact Nat.le_trans (Decl.reachAll_le_heightAll ds m)
          (Nat.le_max_right _ _)

end

/- Without room, a complete statement is too deep. -/
theorem Stmt.tooDeep_exec_zero
    {s : Stmt}
    (h : s.missing? = none)
    (limit : Int)
    (m : Machine) :
    TooDeep limit (s.exec limit 0 m) := by
  rcases exists_tooDeep_eq h limit with ⟨line, hStop⟩
  rw [exec, hStop]
  exact ⟨line, m, rfl⟩

/- A statement that runs by steps below its level. -/
theorem Stmt.reaches_of_level
    {s : Stmt}
    {step : Int → Nat → Eval Value}
    {run : Eval Value}
    {reach : Machine → Nat}
    (h : s.missing? = none)
    (hStep : ∀ limit, Reaches limit (step limit) run reach)
    (hSucc :
      ∀ limit room, s.exec limit (room + 1) = step limit room)
    (hReach : ∀ m, s.reach m = reach m + 1)
    (limit : Int) :
    Reaches limit (s.exec limit) s.run s.reach := by
  have hWhole : ∀ limit,
      Reaches limit (s.exec limit) run s.reach := by
    intro limit
    rw [funext hReach]
    exact (hStep limit).level (tooDeep_exec_zero h limit)
      (hSucc limit)
  exact Reaches.of_height hWhole s.reach_le_height

/- A declaration that runs by steps on its own level. -/
theorem Decl.reaches_of_steps
    {d : Decl}
    {step : Int → Nat → Eval Value}
    {run : Eval Value}
    {reach : Machine → Nat}
    (hStep : ∀ limit, Reaches limit (step limit) run reach)
    (hExec :
      ∀ limit room, d.exec limit room = step limit room)
    (hReach : ∀ m, d.reach m = reach m)
    (limit : Int) :
    Reaches limit (d.exec limit) d.run d.reach := by
  have hWhole : ∀ limit,
      Reaches limit (d.exec limit) run d.reach := by
    intro limit
    rw [funext hReach, funext (hExec limit)]
    exact hStep limit
  exact Reaches.of_height hWhole d.reach_le_height

/- Declarations that run by steps on their own level. -/
theorem Decl.reaches_all_of_steps
    {ds : List Decl}
    {step : Int → Nat → Eval Value}
    {run : Eval Value}
    {reach : Machine → Nat}
    (hStep : ∀ limit, Reaches limit (step limit) run reach)
    (hExec :
      ∀ limit room,
        Decl.execAll limit ds room = step limit room)
    (hReach : ∀ m, Decl.reachAll ds m = reach m)
    (limit : Int) :
    Reaches limit (Decl.execAll limit ds) (Decl.runAll ds)
      (Decl.reachAll ds) := by
  have hWhole : ∀ limit,
      Reaches limit (Decl.execAll limit ds) run
        (Decl.reachAll ds) := by
    intro limit
    rw [funext hReach, funext (hExec limit)]
    exact hStep limit
  exact Reaches.of_height hWhole
    (Decl.reachAll_le_heightAll ds)

/- A branch that is run only if a condition decides so. -/
theorem Eval.Reaches.ite
    {α : Type}
    {limit : Int}
    {step other : Nat → Eval α} {run otherRun : Eval α}
    {reach otherReach : Machine → Nat}
    (h : Reaches limit step run reach)
    (hOther : Reaches limit other otherRun otherReach)
    (b : Bool) :
    Reaches limit
      (fun room => if b then step room else other room)
      (if b then run else otherRun)
      (fun m => if b then reach m else otherReach m) := by
  cases b with
  | true => exact h
  | false => exact hOther

mutual

/-
  A complete statement ends as it would without a limit if
  there is room for what it reaches, and else is too deep.
-/
theorem Stmt.reaches :
    ∀ {s : Stmt}, s.missing? = none → ∀ limit,
      Reaches limit (s.exec limit) s.run s.reach
  | .expression e, h, limit => by
      have hExpr := h
      rw [Stmt.missing?] at hExpr
      exact Stmt.reaches_of_level h (e.reaches hExpr)
        (fun _ _ => by rw [Stmt.exec])
        (fun _ => by rw [Stmt.reach]) limit
  | .print e, h, limit => by
      have hExpr := h
      rw [Stmt.missing?] at hExpr
      have hStep := fun limit =>
        (e.reaches hExpr limit).bind fun v =>
          Reaches.of_shallow (keepsShape_print v)
            (stopsWithin_print v)
      simp only [deeper_zero] at hStep
      exact Stmt.reaches_of_level h hStep
        (fun _ _ => by rw [Stmt.exec])
        (fun _ => by rw [Stmt.reach]) limit
  | .ifThen c s, h, limit => by
      have hParts := h
      rw [Stmt.missing?, Option.or_eq_none_iff] at hParts
      have hStep := fun limit =>
        (c.reaches_evalCondition hParts.1 limit).bind
          (Reaches.ite (Stmt.reaches hParts.2 limit)
            (Reaches.of_shallow (keepsShape_pure Value.nil)
              (stopsWithin_pure Value.nil)))
      exact Stmt.reaches_of_level h hStep
        (fun _ _ => by rw [Stmt.exec])
        (fun _ => by rw [Stmt.reach]) limit
  | .ifElse c s t, h, limit => by
      have hParts := h
      rw [Stmt.missing?, Option.or_eq_none_iff,
        Option.or_eq_none_iff] at hParts
      have hStep := fun limit =>
        (c.reaches_evalCondition hParts.1 limit).bind
          (Reaches.ite (Stmt.reaches hParts.2.1 limit)
            (Stmt.reaches hParts.2.2 limit))
      exact Stmt.reaches_of_level h hStep
        (fun _ _ => by rw [Stmt.exec])
        (fun _ => by rw [Stmt.reach]) limit
  | .block ds, h, limit => by
      have hParts := h
      rw [Stmt.missing?] at hParts
      have hStep := fun limit =>
        (Decl.reaches_all hParts limit).inScope
          (Decl.keepsShape_execAll limit ds)
      exact Stmt.reaches_of_level h hStep
        (fun _ _ => by rw [Stmt.exec])
        (fun _ => by rw [Stmt.reach]) limit
  | .hole, h, limit => by
      rw [Stmt.missing?] at h
      cases h

/-
  A complete declaration ends as it would without a limit if
  there is room for what it reaches, and else is too deep.
-/
theorem Decl.reaches :
    ∀ {d : Decl}, d.missing? = none → ∀ limit,
      Reaches limit (d.exec limit) d.run d.reach
  | .declare name none, h, limit =>
      Decl.reaches_of_steps
        (fun _ => Reaches.of_shallow
          (keepsShape_define name .nil)
          (stopsWithin_define name .nil))
        (fun _ _ => by rw [Decl.exec])
        (fun _ => by rw [Decl.reach]) limit
  | .declare name (some e), h, limit => by
      rw [Decl.missing?] at h
      have hStep := fun limit =>
        (e.reaches h limit).bind fun v =>
          Reaches.of_shallow (keepsShape_define name v)
            (stopsWithin_define name v)
      simp only [deeper_zero] at hStep
      exact Decl.reaches_of_steps hStep
        (fun _ _ => by rw [Decl.exec])
        (fun _ => by rw [Decl.reach]) limit
  | .statement s, h, limit => by
      rw [Decl.missing?] at h
      exact Decl.reaches_of_steps (Stmt.reaches h)
        (fun _ _ => by rw [Decl.exec])
        (fun _ => by rw [Decl.reach]) limit
  | .hole, h, limit => by
      rw [Decl.missing?] at h
      cases h

/- Several declarations reach as deep as the deepest. -/
theorem Decl.reaches_all :
    ∀ {ds : List Decl}, Decl.firstMissing? ds = none →
      ∀ limit,
        Reaches limit (Decl.execAll limit ds)
          (Decl.runAll ds) (Decl.reachAll ds)
  | [], h, limit =>
      Decl.reaches_all_of_steps
        (fun _ => Reaches.of_shallow
          (keepsShape_pure Value.nil)
          (stopsWithin_pure Value.nil))
        (fun _ _ => by rw [Decl.execAll])
        (fun _ => by rw [Decl.reachAll]) limit
  | d :: ds, h, limit => by
      rw [Decl.firstMissing?, Option.or_eq_none_iff] at h
      have hStep := fun limit =>
        (Decl.reaches h.1 limit).bind fun _ =>
          Decl.reaches_all h.2 limit
      exact Decl.reaches_all_of_steps hStep
        (fun _ _ => by rw [Decl.execAll])
        (fun _ => by rw [Decl.reachAll]) limit

end

/- A limit is met exactly if less than that is reached. -/
theorem Decl.tooDeep_evaluate_iff
    {d : Decl}
    (h : d.missing? = none)
    {m : Machine}
    (hScopes : m.env.scopes ≠ [])
    (limit : Int) :
    TooDeep limit (d.evaluate limit m) ↔
      limit.toNat < d.reach m := by
  have hReaches := d.reaches h limit
  constructor
  · intro hDeep
    rcases Nat.lt_or_ge limit.toNat (d.reach m) with
      hLess | hEnough
    · exact hLess
    · unfold evaluate at hDeep
      rw [hReaches.run_of_le m _ hScopes hEnough] at hDeep
      rcases hDeep with ⟨line, after, hRun⟩
      exact absurd rfl
        (hReaches.isShallow m hScopes _ after hRun line limit)
  · exact hReaches.tooDeep_of_lt m _ hScopes

------------------------------------------------------------
-- Heights of First Parts
------------------------------------------------------------

/- The levels down to the first part of all in a tree. -/
def Expr.spine : Expr → Nat
  | literal _ => 1
  | identifier _ => 1
  | grouping e => e.spine + 1
  | unary _ e => e.spine + 1
  | binary left _ _ => left.spine + 1
  | logical left _ _ => left.spine + 1
  | assign _ e => e.spine + 1
  | hole => 1

mutual

/- The levels down to the first part of all in a tree. -/
def Stmt.spine : Stmt → Nat
  | .expression e => e.spine + 1
  | .print e => e.spine + 1
  | .ifThen c _ => c.spine + 1
  | .ifElse c _ _ => c.spine + 1
  | .block [] => 1
  | .block (d :: _) => d.spine + 1
  | .hole => 1

/- The levels down to the first part of all in a tree. -/
def Decl.spine : Decl → Nat
  | .declare _ none => 0
  | .declare _ (some e) => e.spine
  | .statement s => s.spine
  | .hole => 0

end

/- The first parts of an expression are always reached. -/
theorem Expr.spine_le_reach
    (e : Expr)
    (m : Machine) :
    e.spine ≤ e.reach m := by
  induction e with
  | literal t => exact Nat.le_refl _
  | identifier name => exact Nat.le_refl _
  | grouping e ih => exact Nat.succ_le_succ ih
  | unary op e ih => exact Nat.succ_le_succ ih
  | binary left op right ihLeft ihRight =>
      exact Nat.succ_le_succ
        (Nat.le_trans ihLeft (le_deeper _ _ _ m))
  | logical left op right ihLeft ihRight =>
      exact Nat.succ_le_succ
        (Nat.le_trans ihLeft (le_deeper _ _ _ m))
  | assign target e ih => exact Nat.succ_le_succ ih
  | hole => exact Nat.le_refl _

mutual

/- The first parts of a statement are always reached. -/
theorem Stmt.spine_le_reach :
    ∀ (s : Stmt) (m : Machine), s.spine ≤ s.reach m
  | .expression e, m => by
      rw [Stmt.spine, Stmt.reach]
      exact Nat.succ_le_succ (e.spine_le_reach m)
  | .print e, m => by
      rw [Stmt.spine, Stmt.reach]
      exact Nat.succ_le_succ (e.spine_le_reach m)
  | .ifThen c s, m => by
      rw [Stmt.spine, Stmt.reach]
      exact Nat.succ_le_succ
        (Nat.le_trans (c.spine_le_reach m) (le_deeper _ _ _ m))
  | .ifElse c s t, m => by
      rw [Stmt.spine, Stmt.reach]
      exact Nat.succ_le_succ
        (Nat.le_trans (c.spine_le_reach m) (le_deeper _ _ _ m))
  | .block [], m => by
      rw [Stmt.spine, Stmt.reach]
      exact Nat.succ_le_succ (Nat.zero_le _)
  | .block (d :: ds), m => by
      rw [Stmt.spine, Stmt.reach, Decl.reachAll]
      exact Nat.succ_le_succ
        (Nat.le_trans (Decl.spine_le_reach d _)
          (le_deeper _ _ _ _))
  | .hole, _ => Nat.le_refl _

/- The first parts of a declaration are always reached. -/
theorem Decl.spine_le_reach :
    ∀ (d : Decl) (m : Machine), d.spine ≤ d.reach m
  | .declare name none, m => by
      rw [Decl.spine]
      exact Nat.zero_le _
  | .declare name (some e), m => by
      rw [Decl.spine, Decl.reach]
      exact e.spine_le_reach m
  | .statement s, m => by
      rw [Decl.spine, Decl.reach]
      exact Stmt.spine_le_reach s m
  | .hole, m => by
      rw [Decl.spine]
      exact Nat.zero_le _

end

end Lox
