import Lox.Proofs.Evaluation.Writes

/-
  Two runs of one tree, side by side.

  Let the machines of two runs be related, and let the steps
  that trees are made of keep the relation: looking up and
  changing the names of the tree, declaring them, printing,
  and opening and closing a scope.  Then both runs end in the
  same way, with machines that are related again.  What is
  related may depend on how many scopes the runs have opened.

  Key definitions include:
    * `Expr.names`, `Stmt.names`, `Decl.names`
    * `Eval.SameEnding`
    * `Eval.Simulates`
    * `Eval.Simulation`

  Key theorems include:
    * `Expr.simulates_eval`
    * `Stmt.simulates_exec`
    * `Decl.simulates_exec`
-/

namespace Lox

variable {α β : Type}

------------------------------------------------------------
-- Names
------------------------------------------------------------

/- The names that occur in an expression. -/
def Expr.names : Expr → List String
  | literal _ => []
  | identifier name => [name.lexeme]
  | grouping e => e.names
  | unary _ e => e.names
  | binary left _ right => left.names ++ right.names
  | logical left _ right => left.names ++ right.names
  | assign target e => target.lexeme :: e.names
  | hole => []

mutual

/- The names that occur in a statement. -/
def Stmt.names : Stmt → List String
  | .expression e => e.names
  | .print e => e.names
  | .ifThen c s => c.names ++ s.names
  | .ifElse c s t => c.names ++ (s.names ++ t.names)
  | .block ds => Decl.allNames ds
  | .hole => []

/- The names that occur in a declaration, or are declared. -/
def Decl.names : Decl → List String
  | .declare name none => [name.lexeme]
  | .declare name (some e) => name.lexeme :: e.names
  | .statement s => s.names
  | .hole => []

/- The names that occur in several declarations. -/
def Decl.allNames : List Decl → List String
  | [] => []
  | d :: ds => d.names ++ Decl.allNames ds

end

/- The value of a name is the one where it is found. -/
theorem Environment.get?_eq_bind_resolve
    (env : Environment)
    (name : String) :
    env.get? name =
      (env.resolve name).bind fun i => env.valueIn i name :=
  rfl

------------------------------------------------------------
-- Steps
------------------------------------------------------------

namespace Eval

open Environment

variable {R : Machine → Machine → Prop}

/-
  Two runs that end with the same value, or stop for the same
  reason, with machines that are related.
-/
inductive SameEnding
    (R : Machine → Machine → Prop) :
    EStateM.Result Stop Machine α →
      EStateM.Result Stop Machine α → Prop where
  | ok
      (x : α)
      {m m' : Machine}
      (hRelated : R m m') :
      SameEnding R (.ok x m) (.ok x m')
  | error
      (s : Stop)
      {m m' : Machine}
      (hRelated : R m m') :
      SameEnding R (.error s m) (.error s m')

/- What is known of the machines may be weakened. -/
theorem SameEnding.mono
    {R' : Machine → Machine → Prop}
    {r r' : EStateM.Result Stop Machine α}
    (h : SameEnding R r r')
    (hWeak : ∀ {m m'}, R m m' → R' m m') :
    SameEnding R' r r' := by
  cases h with
  | ok x hRelated => exact .ok x (hWeak hRelated)
  | error s hRelated => exact .error s (hWeak hRelated)

/- Runs that end in the same way end in related machines. -/
theorem SameEnding.final
    {r r' : EStateM.Result Stop Machine α}
    (h : SameEnding R r r') :
    R (Eval.final r) (Eval.final r') := by
  cases h with
  | ok x hRelated => exact hRelated
  | error s hRelated => exact hRelated

/- Steps that end in the same way on related machines. -/
def Simulates
    (R : Machine → Machine → Prop)
    (step : Eval α) : Prop :=
  ∀ m m', R m m' → SameEnding R (step m) (step m')

/- Returning ends in the same way. -/
theorem simulates_pure
    (x : α) :
    Simulates R (pure x : Eval α) :=
  fun _ _ hRelated => .ok x hRelated

/- Stopping ends in the same way. -/
theorem simulates_throw
    (s : Stop) :
    Simulates R (throw s : Eval α) :=
  fun _ _ hRelated => .error s hRelated

/- Results and errors end in the same way. -/
theorem simulates_ofExcept
    (r : Except Stop α) :
    Simulates R (ofExcept r) := by
  cases r with
  | ok x => exact simulates_pure x
  | error s => exact simulates_throw s

/- Steps one after the other end in the same way if they do. -/
theorem Simulates.bind
    {step : Eval α}
    {next : α → Eval β}
    (h : Simulates R step)
    (hNext : ∀ x, Simulates R (next x)) :
    Simulates R (step >>= next) := by
  intro m m' hRelated
  have hStep := h m m' hRelated
  rw [bind_apply, bind_apply]
  generalize step m = r, step m' = r' at hStep
  cases hStep with
  | ok x hAfter => exact hNext x _ _ hAfter
  | error s hAfter => exact .error s hAfter

/-
  Relations that the steps of two runs keep, if these are
  about certain names; `R k` relates the machines while `k`
  scopes are open that the runs have opened.  In those, names
  may be declared, and in the ones before if `declares`.
-/
structure Simulation
    (names : String → Prop)
    (declares : Prop)
    (R : Nat → Machine → Machine → Prop) : Prop where
  resolves :
    ∀ {k m m' name}, names name → R k m m' →
      Option.Rel
        (fun i i' =>
          m.env.valueIn i name = m'.env.valueIn i' name ∧
            ∀ v, R k
              { m with env := m.env.insertAt i name v }
              { m' with env := m'.env.insertAt i' name v })
        (m.env.resolve name) (m'.env.resolve name)
  defines :
    ∀ {k m m' name}, 0 < k ∨ declares → names name →
      R k m m' → ∀ v, R k
        { m with env := m.env.define name v }
        { m' with env := m'.env.define name v }
  prints :
    ∀ {k m m'}, R k m m' → ∀ text, R k
      { m with printed := m.printed ++ [text] }
      { m' with printed := m'.printed ++ [text] }
  opens :
    ∀ {k m m'}, R k m m' → R (k + 1)
      { m with env := m.env.push }
      { m' with env := m'.env.push }
  closes :
    ∀ {k m m'}, R (k + 1) m m' →
      (∃ env env', m.env.pop = .ok env ∧
        m'.env.pop = .ok env' ∧
          R k { m with env := env }
            { m' with env := env' }) ∨
      ∃ f, m.env.pop = .error f ∧ m'.env.pop = .error f ∧
        R k m m'

namespace Simulation

variable {names : String → Prop} {declares : Prop}
variable {R : Nat → Machine → Machine → Prop} {k : Nat}

/- Looking a name up ends in the same way. -/
theorem simulates_lookup
    (h : Simulation names declares R)
    {name : Token}
    (hName : names name.lexeme) :
    Simulates (R k) (lookup name) := by
  intro m m' hRelated
  have hResolve := h.resolves hName hRelated
  have hGet :
      m.env.get? name.lexeme = m'.env.get? name.lexeme := by
    rw [get?_eq_bind_resolve, get?_eq_bind_resolve]
    generalize m.env.resolve name.lexeme = r,
      m'.env.resolve name.lexeme = r' at hResolve
    cases hResolve with
    | none => rfl
    | some hFound => exact hFound.1
  unfold lookup
  rw [hGet]
  split
  · exact .ok _ hRelated
  · exact .error _ hRelated

/- Assigning to a name ends in the same way. -/
theorem simulates_assign
    (h : Simulation names declares R)
    {name : Token}
    (hName : names name.lexeme)
    (v : Value) :
    Simulates (R k) (assign name v) := by
  intro m m' hRelated
  have hResolve := h.resolves hName hRelated
  unfold assign assign?
  generalize m.env.resolve name.lexeme = r,
    m'.env.resolve name.lexeme = r' at hResolve
  cases hResolve with
  | none => exact .error _ hRelated
  | some hFound => exact .ok _ (hFound.2 v)

/- Declaring a name ends in the same way. -/
theorem simulates_define
    (h : Simulation names declares R)
    (hDeclares : 0 < k ∨ declares)
    {name : Token}
    (hName : names name.lexeme)
    (v : Value) :
    Simulates (R k) (define name v) :=
  fun _ _ hRelated =>
    .ok v (h.defines hDeclares hName hRelated v)

/- Printing ends in the same way. -/
theorem simulates_print
    (h : Simulation names declares R)
    (v : Value) :
    Simulates (R k) (print v) :=
  fun _ _ hRelated => .ok _ (h.prints hRelated v.render)

/- A scope of its own ends in the same way. -/
theorem simulates_inScope
    (h : Simulation names declares R)
    {step : Eval α}
    (hStep : Simulates (R (k + 1)) step) :
    Simulates (R k) (inScope step) := by
  intro m m' hRelated
  have hInner := hStep _ _ (h.opens hRelated)
  unfold inScope
  generalize step { m with env := m.env.push } = r,
    step { m' with env := m'.env.push } = r' at hInner
  cases hInner with
  | ok x hAfter =>
      rcases h.closes hAfter with
        ⟨env, env', hPop, hPop', hOuter⟩ |
        ⟨f, hPop, hPop', hOuter⟩
      · simp only [hPop, hPop']
        exact .ok x hOuter
      · simp only [hPop, hPop']
        exact .error _ hOuter
  | error s hAfter =>
      rcases h.closes hAfter with
        ⟨env, env', hPop, hPop', hOuter⟩ |
        ⟨f, hPop, hPop', hOuter⟩
      · simp only [hPop, hPop']
        exact .error s hOuter
      · simp only [hPop, hPop']
        exact .error _ hOuter

end Simulation

end Eval

------------------------------------------------------------
-- Parts of Trees
------------------------------------------------------------

open Eval hiding ofExcept

section Parts

variable {R : Machine → Machine → Prop}

/- What follows a left operand ends in the same way. -/
theorem Expr.simulates_evalRight
    (whole : Expr)
    (op : Token)
    {right : Eval Value}
    (h : Simulates R right)
    (x : Value) :
    Simulates R (whole.evalRight op right x) := by
  refine (simulates_ofExcept _).bind fun a => ?_
  split
  · exact simulates_pure _
  · split
    · exact simulates_pure _
    · exact h.bind fun y =>
        (simulates_ofExcept _).bind fun b =>
          simulates_pure _

/- Deciding a condition ends in the same way. -/
theorem Expr.simulates_decide
    (c : Expr)
    (v : Value) :
    Simulates R (c.decide v) := by
  unfold decide
  split
  · exact simulates_pure _
  · split
    · exact simulates_throw _
    · exact simulates_ofExcept _

/- Of two steps, the one that is chosen does. -/
theorem Eval.Simulates.ite
    {step other : Eval α}
    (h : Simulates R step)
    (hOther : Simulates R other)
    (b : Bool) :
    Simulates R (if b then step else other) := by
  cases b with
  | true => exact h
  | false => exact hOther

end Parts

------------------------------------------------------------
-- Trees
------------------------------------------------------------

variable {names : String → Prop} {declares : Prop}
variable {R : Nat → Machine → Machine → Prop}

/- Evaluating an expression ends in the same way. -/
theorem Expr.simulates_eval
    (h : Simulation names declares R)
    (limit : Int)
    (e : Expr)
    (room k : Nat)
    (hNames : ∀ n ∈ e.names, names n) :
    Simulates (R k) (e.eval limit room) := by
  induction e generalizing room with
  | literal t =>
      cases room with
      | zero => exact simulates_throw _
      | succ room => exact simulates_ofExcept _
  | identifier name =>
      have hName := List.forall_mem_singleton.mp hNames
      cases room with
      | zero => exact simulates_throw _
      | succ room => exact h.simulates_lookup hName
  | grouping e ih =>
      cases room with
      | zero => exact simulates_throw _
      | succ room => exact ih room hNames
  | unary op e ih =>
      cases room with
      | zero => exact simulates_throw _
      | succ room =>
          exact (ih room hNames).bind
            fun v => simulates_ofExcept _
  | binary left op right ihLeft ihRight =>
      rcases List.forall_mem_append.mp hNames with
        ⟨hLeft, hRight⟩
      cases room with
      | zero => exact simulates_throw _
      | succ room =>
          exact (ihLeft room hLeft).bind fun x =>
            (ihRight room hRight).bind
              fun y => simulates_ofExcept _
  | logical left op right ihLeft ihRight =>
      rcases List.forall_mem_append.mp hNames with
        ⟨hLeft, hRight⟩
      cases room with
      | zero => exact simulates_throw _
      | succ room =>
          exact (ihLeft room hLeft).bind
            ((logical left op right).simulates_evalRight op
              (ihRight room hRight))
  | assign target e ih =>
      rcases List.forall_mem_cons.mp hNames with
        ⟨hTarget, hValue⟩
      cases room with
      | zero => exact simulates_throw _
      | succ room =>
          exact (ih room hValue).bind
            (h.simulates_assign hTarget)
  | hole =>
      cases room with
      | zero => exact simulates_throw _
      | succ room => exact simulates_throw _

/- Evaluating a condition ends in the same way. -/
theorem Expr.simulates_evalCondition
    (h : Simulation names declares R)
    (limit : Int)
    (c : Expr)
    (room k : Nat)
    (hNames : ∀ n ∈ c.names, names n) :
    Simulates (R k) (c.evalCondition limit room) :=
  (c.simulates_eval h limit room k hNames).bind
    c.simulates_decide

mutual

/-
  Running a statement ends in the same way.  It declares no
  name but in scopes that it opens.
-/
theorem Stmt.simulates_exec
    (h : Simulation names declares R)
    (limit : Int) :
    ∀ (s : Stmt) (room k : Nat), (∀ n ∈ s.names, names n) →
      Simulates (R k) (s.exec limit room)
  | s, 0, k, hNames => by
      rw [Stmt.exec]
      exact simulates_throw _
  | .expression e, room + 1, k, hNames => by
      rw [Stmt.names] at hNames
      rw [Stmt.exec]
      exact e.simulates_eval h limit room k hNames
  | .print e, room + 1, k, hNames => by
      rw [Stmt.names] at hNames
      rw [Stmt.exec]
      exact (e.simulates_eval h limit room k hNames).bind
        h.simulates_print
  | .ifThen c s, room + 1, k, hNames => by
      rw [Stmt.names, List.forall_mem_append] at hNames
      rw [Stmt.exec]
      exact
        (c.simulates_evalCondition h limit room k
          hNames.1).bind
        ((s.simulates_exec h limit room k hNames.2).ite
          (simulates_pure _))
  | .ifElse c s t, room + 1, k, hNames => by
      rw [Stmt.names, List.forall_mem_append,
        List.forall_mem_append] at hNames
      rw [Stmt.exec]
      exact
        (c.simulates_evalCondition h limit room k
          hNames.1).bind
        ((s.simulates_exec h limit room k hNames.2.1).ite
          (t.simulates_exec h limit room k hNames.2.2))
  | .block ds, room + 1, k, hNames => by
      rw [Stmt.names] at hNames
      rw [Stmt.exec]
      exact h.simulates_inScope
        (Decl.simulates_execAll h limit ds room (k + 1)
          (.inl (Nat.succ_pos k)) hNames)
  | .hole, room + 1, k, hNames => by
      rw [Stmt.exec]
      exact simulates_throw _

/- Running a declaration ends in the same way. -/
theorem Decl.simulates_exec
    (h : Simulation names declares R)
    (limit : Int) :
    ∀ (d : Decl) (room k : Nat), 0 < k ∨ declares →
      (∀ n ∈ d.names, names n) →
        Simulates (R k) (d.exec limit room)
  | .declare name none, room, k, hDeclares, hNames => by
      rw [Decl.names, List.forall_mem_singleton] at hNames
      rw [Decl.exec]
      exact h.simulates_define hDeclares hNames .nil
  | .declare name (some e), room, k, hDeclares, hNames => by
      rw [Decl.names, List.forall_mem_cons] at hNames
      rw [Decl.exec]
      exact (e.simulates_eval h limit room k hNames.2).bind
        (h.simulates_define hDeclares hNames.1)
  | .statement s, room, k, hDeclares, hNames => by
      rw [Decl.names] at hNames
      rw [Decl.exec]
      exact s.simulates_exec h limit room k hNames
  | .hole, room, k, hDeclares, hNames => by
      rw [Decl.exec]
      exact simulates_throw _

/- Running declarations in order ends in the same way. -/
theorem Decl.simulates_execAll
    (h : Simulation names declares R)
    (limit : Int) :
    ∀ (ds : List Decl) (room k : Nat), 0 < k ∨ declares →
      (∀ n ∈ Decl.allNames ds, names n) →
        Simulates (R k) (Decl.execAll limit ds room)
  | [], room, k, hDeclares, hNames => by
      rw [Decl.execAll]
      exact simulates_pure _
  | d :: ds, room, k, hDeclares, hNames => by
      rw [Decl.allNames, List.forall_mem_append] at hNames
      rw [Decl.execAll]
      exact
        (d.simulates_exec h limit room k hDeclares
          hNames.1).bind fun _ =>
        Decl.simulates_execAll h limit ds room k hDeclares
          hNames.2

end

end Lox
