import Lox.Evaluation

/-
  Evaluation keeps the arena of scopes in shape.

  However a tree ends, the same scopes are there with the
  same links, and the same one is current: a block closes
  the scope it opens, and nothing else opens one.  Hence the
  end of a block never fails.

  Key definitions include:
    * `Environment.SameShape`
    * `Environment.closed`
    * `Eval.KeepsShape`

  Key theorems include:
    * `Environment.pop_eq_ok`
    * `Eval.inScope_eq`
    * `Expr.keepsShape_eval`
    * `Stmt.keepsShape_exec`
    * `Decl.keepsShape_exec`
-/

namespace Lox

variable {α β : Type}

------------------------------------------------------------
-- Shapes
------------------------------------------------------------

namespace Environment

/- The links of all scopes. -/
def links
    (env : Environment) : List (Option Nat) :=
  env.scopes.map Scope.parent

/- Environments that differ in their bindings at most. -/
structure SameShape
    (a b : Environment) : Prop where
  links : a.links = b.links
  current : a.current = b.current

variable {a b c env : Environment}

/- An environment has its own shape. -/
theorem SameShape.refl
    (env : Environment) :
    SameShape env env :=
  ⟨rfl, rfl⟩

/- Having the same shape is symmetric. -/
theorem SameShape.symm
    (h : SameShape a b) :
    SameShape b a :=
  ⟨h.links.symm, h.current.symm⟩

/- Having the same shape is transitive. -/
theorem SameShape.trans
    (hab : SameShape a b)
    (hbc : SameShape b c) :
    SameShape a c :=
  ⟨hab.links.trans hbc.links, hab.current.trans hbc.current⟩

/- The same shape means as many scopes. -/
theorem SameShape.length_eq
    (h : SameShape a b) :
    a.scopes.length = b.scopes.length := by
  have hLength := congrArg List.length h.links
  simpa [Environment.links] using hLength

/- The same shape means scopes on both sides, or on none. -/
theorem SameShape.scopes_ne_nil
    (h : SameShape a b)
    (ha : a.scopes ≠ []) :
    b.scopes ≠ [] := by
  intro hb
  have hLength := h.length_eq
  rw [hb, List.length_nil] at hLength
  exact ha (List.eq_nil_of_length_eq_zero hLength)

/- Binding a name keeps the shape. -/
theorem sameShape_insertAt
    (env : Environment)
    (i : Nat)
    (name : String)
    (v : Value) :
    SameShape env (env.insertAt i name v) := by
  refine ⟨?_, rfl⟩
  apply List.ext_getElem?
  intro j
  simp only [links, insertAt, List.getElem?_map,
    List.getElem?_modify]
  split
  · cases env.scopes[j]? <;> rfl
  · simp

/- Assigning to a name keeps the shape. -/
theorem sameShape_of_assign?
    {name : String}
    {v : Value}
    (h : env.assign? name v = some b) :
    SameShape env b := by
  rcases Option.map_eq_some_iff.mp h with ⟨i, -, rfl⟩
  exact sameShape_insertAt env i name v

/-
  What is left of an environment once the scope that was
  opened in `env` is closed: the other scopes, and the same
  current one as before.
-/
def closed
    (env inner : Environment) : Environment :=
  ⟨inner.scopes.dropLast, env.current⟩

/- Closing a scope that was just opened changes nothing. -/
theorem closed_push
    (env : Environment) :
    env.closed env.push = env := by
  unfold closed push
  rw [List.dropLast_concat]

/- Once the scope is closed, the shape is the old one. -/
theorem SameShape.closed
    (h : SameShape env.push b) :
    SameShape env (env.closed b) := by
  refine ⟨?_, rfl⟩
  have hLinks := h.links
  simp only [Environment.links, push, List.map_append,
    List.map_cons, List.map_nil] at hLinks
  simp only [Environment.links, Environment.closed,
    List.map_dropLast, ← hLinks, List.dropLast_concat]

/-
  A scope that was opened can be closed again, after steps
  that kept the shape.
-/
theorem pop_eq_ok
    (hScopes : env.scopes ≠ [])
    (h : SameShape env.push b) :
    b.pop = .ok (env.closed b) := by
  have hLength :
      b.scopes.length = env.scopes.length + 1 := by
    rw [← h.length_eq]
    simp [push]
  have hCurrent : b.current = env.scopes.length :=
    h.current.symm
  have hNonzero : b.current ≠ 0 := by
    rw [hCurrent]
    exact fun hZero =>
      hScopes (List.eq_nil_of_length_eq_zero hZero)
  have hParent :
      b.scopes[b.current]?.bind Scope.parent =
        some env.current := by
    have hLink :
        b.links[b.current]? =
          some (some env.current) := by
      rw [← h.links, hCurrent]
      simp [links, push]
    rw [links, List.getElem?_map] at hLink
    rcases Option.map_eq_some_iff.mp hLink with
      ⟨s, hs, hParent⟩
    rw [hs]
    exact hParent
  rw [pop, if_neg hNonzero, hParent]
  dsimp only
  rw [if_pos (by omega)]
  rfl

end Environment

------------------------------------------------------------
-- Steps
------------------------------------------------------------

namespace Eval

open Environment

/- The machine that a run ends in. -/
def final : EStateM.Result Stop Machine α → Machine
  | .ok _ m => m
  | .error _ m => m

/- Steps that keep the shape of the scopes. -/
def KeepsShape
    (step : Eval α) : Prop :=
  ∀ m, m.env.scopes ≠ [] →
    SameShape m.env (final (step m)).env

/- How one step goes on to the next. -/
theorem bind_apply
    (step : Eval α)
    (next : α → Eval β)
    (m : Machine) :
    (step >>= next) m =
      match step m with
      | .ok x m => next x m
      | .error s m => .error s m := by
  change EStateM.bind step next m = _
  unfold EStateM.bind
  cases step m <;> rfl

/- A step that does nothing to the machine. -/
theorem keepsShape_of_final_eq
    {step : Eval α}
    (h : ∀ m, final (step m) = m) :
    KeepsShape step := by
  intro m _
  rw [h]
  exact SameShape.refl _

/- Results and errors leave the machine alone. -/
theorem keepsShape_ofExcept
    (r : Except Stop α) :
    KeepsShape (ofExcept r) :=
  keepsShape_of_final_eq fun m => by cases r <;> rfl

/- Stopping leaves the machine alone. -/
theorem keepsShape_throw
    (s : Stop) :
    KeepsShape (throw s : Eval α) :=
  keepsShape_of_final_eq fun _ => rfl

/- Returning leaves the machine alone. -/
theorem keepsShape_pure
    (x : α) :
    KeepsShape (pure x : Eval α) :=
  keepsShape_of_final_eq fun _ => rfl

/- Steps one after the other keep the shape if they do. -/
theorem KeepsShape.bind
    {step : Eval α}
    {next : α → Eval β}
    (h : KeepsShape step)
    (hNext : ∀ x, KeepsShape (next x)) :
    KeepsShape (step >>= next) := by
  intro m hScopes
  have hStep := h m hScopes
  rw [bind_apply]
  cases hRun : step m with
  | ok x after =>
      rw [hRun] at hStep
      exact hStep.trans
        (hNext x after (hStep.scopes_ne_nil hScopes))
  | error s after =>
      rw [hRun] at hStep
      exact hStep

/- Looking a name up keeps the shape. -/
theorem keepsShape_lookup
    (name : Token) :
    KeepsShape (lookup name) := by
  apply keepsShape_of_final_eq
  intro m
  unfold lookup
  split <;> rfl

/- Assigning keeps the shape. -/
theorem keepsShape_assign
    (name : Token)
    (v : Value) :
    KeepsShape (assign name v) := by
  intro m _
  unfold assign
  split
  · rename_i env hAssign
    exact sameShape_of_assign? hAssign
  · exact SameShape.refl _

/- Declaring keeps the shape. -/
theorem keepsShape_define
    (name : Token)
    (v : Value) :
    KeepsShape (define name v) :=
  fun _ _ => sameShape_insertAt _ _ _ _

/- Printing keeps the shape. -/
theorem keepsShape_print
    (v : Value) :
    KeepsShape (print v) :=
  fun _ _ => SameShape.refl _

/- An outcome, with other scopes put in. -/
def withScopes
    (env : Environment) :
    EStateM.Result Stop Machine α →
      EStateM.Result Stop Machine α
  | .ok x m => .ok x { m with env := env }
  | .error s m => .error s { m with env := env }

/-
  A step in a scope of its own ends as the step does, without
  the scope that was opened for it.
-/
theorem inScope_eq
    {step : Eval α}
    {m : Machine}
    (hScopes : m.env.scopes ≠ [])
    (h : KeepsShape step) :
    inScope step m =
      withScopes
        (m.env.closed
          (final (step { m with env := m.env.push })).env)
        (step { m with env := m.env.push }) := by
  have hPush : m.env.push.scopes ≠ [] := by
    simp [push]
  have hPop := pop_eq_ok hScopes
    (h { m with env := m.env.push } hPush)
  unfold inScope
  cases hRun : step { m with env := m.env.push } with
  | ok x after =>
      rw [hRun] at hPop
      simp only [final] at hPop
      simp only [hPop, withScopes, final]
  | error s after =>
      rw [hRun] at hPop
      simp only [final] at hPop
      simp only [hPop, withScopes, final]

/- These scopes have the shape that there was before. -/
theorem inScope_apply
    {step : Eval α}
    {m : Machine}
    (hScopes : m.env.scopes ≠ [])
    (h : KeepsShape step) :
    ∃ env, SameShape m.env env ∧
      inScope step m =
        withScopes env
          (step { m with env := m.env.push }) := by
  have hPush : m.env.push.scopes ≠ [] := by
    simp [push]
  exact ⟨_, (h { m with env := m.env.push } hPush).closed,
    inScope_eq hScopes h⟩

/- A scope of its own keeps the shape. -/
theorem KeepsShape.inScope
    {step : Eval α}
    (h : KeepsShape step) :
    KeepsShape (inScope step) := by
  intro m hScopes
  rcases inScope_apply hScopes h with ⟨env, hShape, hRun⟩
  rw [hRun]
  cases step { m with env := m.env.push } <;> exact hShape

end Eval

------------------------------------------------------------
-- Parts of Trees
------------------------------------------------------------

open Eval hiding ofExcept

/-
  What follows the left operand of a logical operator, given
  how the right one is evaluated.
-/
def Expr.evalRight
    (whole : Expr)
    (op : Token)
    (right : Eval Value)
    (x : Value) : Eval Value := do
  let a ← Eval.ofExcept (whole.truth op.line x)
  if op.kind = .andWord ∧ a = false then
    return .bool false
  else if op.kind = .orWord ∧ a = true then
    return .bool true
  else
    let y ← right
    let b ← Eval.ofExcept (whole.truth op.line y)
    return .bool b

/- The operand of a logical operator keeps the shape. -/
theorem Expr.keepsShape_evalRight
    (whole : Expr)
    (op : Token)
    {right : Eval Value}
    (h : KeepsShape right)
    (x : Value) :
    KeepsShape (whole.evalRight op right x) := by
  refine (keepsShape_ofExcept _).bind fun a => ?_
  split
  · exact keepsShape_pure _
  · split
    · exact keepsShape_pure _
    · exact h.bind fun y =>
        (keepsShape_ofExcept _).bind fun b =>
          keepsShape_pure _

/- What the value of a condition decides. -/
def Expr.decide
    (c : Expr) : Value → Eval Bool
  | .bool b => return b
  | v =>
      match c.line with
      | .error f => throw (.fault f)
      | .ok line => Eval.ofExcept (c.truth line v)

/- Deciding a condition keeps the shape. -/
theorem Expr.keepsShape_decide
    (c : Expr)
    (v : Value) :
    KeepsShape (c.decide v) := by
  unfold decide
  split
  · exact keepsShape_pure _
  · split
    · exact keepsShape_throw _
    · exact keepsShape_ofExcept _

------------------------------------------------------------
-- Trees
------------------------------------------------------------

/- Evaluating an expression keeps the shape. -/
theorem Expr.keepsShape_eval
    (limit : Int)
    (e : Expr)
    (room : Nat) :
    KeepsShape (e.eval limit room) := by
  induction e generalizing room with
  | literal t =>
      cases room with
      | zero => exact keepsShape_throw _
      | succ room => exact keepsShape_ofExcept _
  | identifier name =>
      cases room with
      | zero => exact keepsShape_throw _
      | succ room => exact keepsShape_lookup name
  | grouping e ih =>
      cases room with
      | zero => exact keepsShape_throw _
      | succ room => exact ih room
  | unary op e ih =>
      cases room with
      | zero => exact keepsShape_throw _
      | succ room =>
          exact (ih room).bind fun v => keepsShape_ofExcept _
  | binary left op right ihLeft ihRight =>
      cases room with
      | zero => exact keepsShape_throw _
      | succ room =>
          exact (ihLeft room).bind fun x =>
            (ihRight room).bind fun y => keepsShape_ofExcept _
  | logical left op right ihLeft ihRight =>
      cases room with
      | zero => exact keepsShape_throw _
      | succ room =>
          exact (ihLeft room).bind
            ((logical left op right).keepsShape_evalRight op
              (ihRight room))
  | assign target e ih =>
      cases room with
      | zero => exact keepsShape_throw _
      | succ room =>
          exact (ih room).bind fun v =>
            keepsShape_assign target v
  | hole =>
      cases room with
      | zero => exact keepsShape_throw _
      | succ room => exact keepsShape_throw _

/- Evaluating a condition keeps the shape. -/
theorem Expr.keepsShape_evalCondition
    (limit : Int)
    (c : Expr)
    (room : Nat) :
    KeepsShape (c.evalCondition limit room) := by
  exact (c.keepsShape_eval limit room).bind
    c.keepsShape_decide

mutual

/- Running a statement keeps the shape. -/
theorem Stmt.keepsShape_exec
    (limit : Int) :
    ∀ (s : Stmt) (room : Nat),
      KeepsShape (s.exec limit room)
  | s, 0 => by
      rw [Stmt.exec]
      exact keepsShape_throw _
  | .expression e, room + 1 => by
      rw [Stmt.exec]
      exact e.keepsShape_eval limit room
  | .print e, room + 1 => by
      rw [Stmt.exec]
      exact (e.keepsShape_eval limit room).bind
        keepsShape_print
  | .ifThen c s, room + 1 => by
      rw [Stmt.exec]
      refine (c.keepsShape_evalCondition limit room).bind
        fun b => ?_
      split
      · exact s.keepsShape_exec limit room
      · exact keepsShape_pure _
  | .ifElse c s t, room + 1 => by
      rw [Stmt.exec]
      refine (c.keepsShape_evalCondition limit room).bind
        fun b => ?_
      split
      · exact s.keepsShape_exec limit room
      · exact t.keepsShape_exec limit room
  | .block ds, room + 1 => by
      rw [Stmt.exec]
      exact (Decl.keepsShape_execAll limit ds room).inScope
  | .hole, room + 1 => by
      rw [Stmt.exec]
      exact keepsShape_throw _

/- Running a declaration keeps the shape. -/
theorem Decl.keepsShape_exec
    (limit : Int) :
    ∀ (d : Decl) (room : Nat),
      KeepsShape (d.exec limit room)
  | .declare name none, room => by
      rw [Decl.exec]
      exact keepsShape_define name .nil
  | .declare name (some e), room => by
      rw [Decl.exec]
      exact (e.keepsShape_eval limit room).bind
        (keepsShape_define name)
  | .statement s, room => by
      rw [Decl.exec]
      exact s.keepsShape_exec limit room
  | .hole, room => by
      rw [Decl.exec]
      exact keepsShape_throw _

/- Running several declarations keeps the shape. -/
theorem Decl.keepsShape_execAll
    (limit : Int) :
    ∀ (ds : List Decl) (room : Nat),
      KeepsShape (Decl.execAll limit ds room)
  | [], room => by
      rw [Decl.execAll]
      exact keepsShape_pure _
  | d :: ds, room => by
      rw [Decl.execAll]
      exact (d.keepsShape_exec limit room).bind fun _ =>
        Decl.keepsShape_execAll limit ds room

end

end Lox
