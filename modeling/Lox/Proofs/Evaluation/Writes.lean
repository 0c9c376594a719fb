import Lox.Proofs.Evaluation.Scopes

/-
  What steps write to the scopes.

  The writes of a step are the bindings that it changes, in
  order, up to where it ends.  Whether it ends with a value or
  stops, the environment after it is the one before it with
  these writes made, and with no other change.  A step that
  declares nothing writes to names that are bound where it
  writes to them, so that the same names are bound after it.

  Key definitions include:
    * `Environment.valueIn`
    * `Environment.Binds`
    * `Environment.HasCurrent`
    * `Write`
    * `Eval.Logs`

  Key theorems include:
    * `Environment.closed_writeAll`
    * `Eval.Logs.bind`
    * `Eval.Logs.inScope`
    * `Eval.Logs.binds_iff`
-/

namespace Lox

variable {α β : Type}

------------------------------------------------------------
-- Bindings of One Scope
------------------------------------------------------------

namespace Environment

variable {env inner : Environment}
variable {i j : Nat} {name other : String} {v : Value}

/- The value that a scope, by itself, binds a name to. -/
def valueIn
    (env : Environment)
    (i : Nat)
    (name : String) : Option Value :=
  env.scopes[i]?.bind fun s => s.bindings.find? name

/- Whether a scope, by itself, binds a name. -/
def Binds
    (env : Environment)
    (i : Nat)
    (name : String) : Prop :=
  (env.valueIn i name).isSome = true

/- A name that is bound in a scope has its new value there. -/
theorem valueIn_insertAt_self
    (h : i < env.scopes.length) :
    (env.insertAt i name v).valueIn i name = some v := by
  simp [valueIn, insertAt, List.getElem?_eq_getElem h,
    Bindings.find?_insert_self]

/- Other scopes, and other names, are left alone. -/
theorem valueIn_insertAt_of_ne
    (h : j = i → other ≠ name) :
    (env.insertAt i name v).valueIn j other =
      env.valueIn j other := by
  unfold valueIn insertAt
  rw [List.getElem?_modify]
  by_cases hj : i = j
  · subst hj
    cases env.scopes[i]? with
    | none => rfl
    | some s =>
        simp [Bindings.find?_insert_of_ne _ _ _ _ (h rfl)]
  · cases env.scopes[j]? with
    | none => rfl
    | some s => simp [hj]

/- A scope that binds a name exists. -/
theorem Binds.lt_length
    (h : env.Binds i name) :
    i < env.scopes.length := by
  apply Nat.lt_of_not_le
  intro hLength
  rw [Binds, valueIn, List.getElem?_eq_none hLength] at h
  cases h

/- A name is bound in the scope that it is found in. -/
theorem binds_of_resolve
    (h : env.resolve name = some i) :
    env.Binds i name := by
  have hFrom :
      ∀ j, env.resolveFrom name j = some i →
        env.Binds i name := by
    intro j hj
    fun_induction env.resolveFrom name j with
    | case1 j hNone => cases hj
    | case2 j s hs hFound =>
        cases hj
        rw [Binds, valueIn, hs]
        exact hFound
    | case3 j s hs hFound hParent => cases hj
    | case4 j s hs hFound p hParent hLess ih => exact ih hj
    | case5 j s hs hFound p hParent hLess => cases hj
  exact hFrom env.current h

end Environment

------------------------------------------------------------
-- Writes
------------------------------------------------------------

/- A name of a scope, and the value that is written to it. -/
structure Write where
  scope : Nat
  name : String
  value : Value
deriving DecidableEq

namespace Environment

variable {env inner : Environment} {w : Write}
variable {ws : List Write}
variable {i : Nat} {name : String}

/- Make a write. -/
def write
    (env : Environment)
    (w : Write) : Environment :=
  env.insertAt w.scope w.name w.value

/- Make writes one after the other. -/
def writeAll
    (env : Environment)
    (ws : List Write) : Environment :=
  ws.foldl write env

/- Writes are made one after the other. -/
theorem writeAll_append
    (env : Environment)
    (ws vs : List Write) :
    env.writeAll (ws ++ vs) = (env.writeAll ws).writeAll vs :=
  List.foldl_append

/- Writes keep the shape of the scopes. -/
theorem sameShape_writeAll
    (env : Environment)
    (ws : List Write) :
    SameShape env (env.writeAll ws) := by
  induction ws generalizing env with
  | nil => exact SameShape.refl env
  | cons w ws ih =>
      exact (sameShape_insertAt env _ _ _).trans
        (ih (env.write w))

/- A write binds its name, in its scope, and no other. -/
theorem binds_write
    (hScope : w.scope < env.scopes.length)
    (i : Nat)
    (name : String) :
    (env.write w).Binds i name ↔
      env.Binds i name ∨ w.scope = i ∧ w.name = name := by
  by_cases hSame : w.scope = i ∧ w.name = name
  · rcases hSame with ⟨rfl, rfl⟩
    simp [Binds, write, valueIn_insertAt_self hScope]
  · have hOther : i = w.scope → name ≠ w.name := by
      rintro rfl rfl
      exact hSame ⟨rfl, rfl⟩
    rw [Binds, write, valueIn_insertAt_of_ne hOther,
      or_iff_left hSame, Binds]

/- Writes bind their names, in their scopes, and no other. -/
theorem binds_writeAll
    (hScopes : ∀ w ∈ ws, w.scope < env.scopes.length) :
    (env.writeAll ws).Binds i name ↔
      env.Binds i name ∨
        ∃ w ∈ ws, w.scope = i ∧ w.name = name := by
  induction ws generalizing env with
  | nil => simp [writeAll]
  | cons w ws ih =>
      rw [List.forall_mem_cons] at hScopes
      have hLength :
          env.scopes.length = (env.write w).scopes.length :=
        (sameShape_insertAt env _ _ _).length_eq
      change ((env.write w).writeAll ws).Binds i name ↔ _
      rw [ih (by rw [← hLength]; exact hScopes.2),
        binds_write hScopes.1, or_assoc]
      simp

/- Writes to an inner scope are lost when it is closed. -/
theorem closed_write
    (h : inner.scopes.length = env.scopes.length + 1)
    (w : Write) :
    env.closed (inner.write w) =
      if w.scope < env.scopes.length then
        (env.closed inner).write w
      else env.closed inner := by
  have hScopes :
      (inner.write w).scopes.dropLast =
        if w.scope < env.scopes.length then
          ((env.closed inner).write w).scopes
        else inner.scopes.dropLast := by
    apply List.ext_getElem?
    intro j
    split
    all_goals
      simp only [write, insertAt, closed,
        List.getElem?_dropLast, List.getElem?_modify,
        List.length_modify]
      grind
  unfold closed at hScopes ⊢
  rw [hScopes]
  split <;> rfl

/- Of the writes, those to outer scopes are left. -/
theorem closed_writeAll
    (env : Environment)
    (ws : List Write) :
    env.closed (env.push.writeAll ws) =
      env.writeAll
        (ws.filter fun w => w.scope < env.scopes.length) := by
  have hWrites :
      ∀ inner,
        inner.scopes.length = env.scopes.length + 1 →
          env.closed (inner.writeAll ws) =
            (env.closed inner).writeAll
              (ws.filter fun w =>
                w.scope < env.scopes.length) := by
    induction ws with
    | nil => exact fun _ _ => rfl
    | cons w ws ih =>
        intro inner hLength
        have hShape := (sameShape_insertAt inner w.scope
          w.name w.value).length_eq
        have hStep := closed_write hLength w
        change env.closed ((inner.write w).writeAll ws) = _
        have hNext :
            (inner.write w).scopes.length =
              env.scopes.length + 1 :=
          hShape.symm.trans hLength
        rw [ih (inner.write w) hNext, hStep, List.filter_cons]
        by_cases hOuter : w.scope < env.scopes.length
        · rw [if_pos hOuter, if_pos (by simpa using hOuter)]
          rfl
        · rw [if_neg hOuter, if_neg (by simpa using hOuter)]
  have hPush := hWrites env.push (by simp [push])
  rw [hPush, closed_push]

end Environment

------------------------------------------------------------
-- Writes of Steps
------------------------------------------------------------

namespace Environment

variable {env : Environment} {w : Write} {ws : List Write}
variable {declares : Prop} {i : Nat} {name : String}

/- Whether there is a current scope. -/
def HasCurrent
    (env : Environment) : Prop :=
  env.current < env.scopes.length

/- Where there is a current scope, there is a scope. -/
theorem HasCurrent.scopes_ne_nil
    (h : env.HasCurrent) :
    env.scopes ≠ [] :=
  List.ne_nil_of_length_pos (Nat.zero_lt_of_lt h)

/- A scope that was just opened is the current one. -/
theorem hasCurrent_push
    (env : Environment) :
    env.push.HasCurrent := by
  simp [HasCurrent, push]

/- The same shape means a current scope on both sides. -/
theorem SameShape.hasCurrent
    {after : Environment}
    (hShape : SameShape env after)
    (h : env.HasCurrent) :
    after.HasCurrent := by
  unfold HasCurrent
  rw [← hShape.current, ← hShape.length_eq]
  exact h

/- Writes leave a current scope. -/
theorem HasCurrent.writeAll
    (h : env.HasCurrent)
    (ws : List Write) :
    (env.writeAll ws).HasCurrent :=
  (sameShape_writeAll env ws).hasCurrent h

/- A name that is declared has its value. -/
theorem HasCurrent.valueIn_define
    (h : env.HasCurrent)
    (name : String)
    (v : Value) :
    (env.define name v).valueIn env.current name = some v :=
  valueIn_insertAt_self h

/- Declaring a name binds it in the current scope. -/
theorem HasCurrent.binds_define
    (h : env.HasCurrent)
    (name : String)
    (v : Value)
    (i : Nat)
    (other : String) :
    (env.define name v).Binds i other ↔
      env.Binds i other ∨
        i = env.current ∧ other = name := by
  rw [eq_comm (a := i), eq_comm (a := other)]
  exact binds_write (w := ⟨env.current, name, v⟩) h i other

/- Opening a scope leaves the bindings of the others. -/
theorem binds_push
    (h : i < env.scopes.length) :
    env.push.Binds i name ↔ env.Binds i name := by
  unfold Binds valueIn push
  rw [List.getElem?_append_left h]

/-
  The writes that may be made: those to names that are bound
  and, if names may be declared, those to the current scope.
-/
def Admits
    (declares : Prop)
    (env : Environment)
    (w : Write) : Prop :=
  env.Binds w.scope w.name ∨
    declares ∧ w.scope = env.current

/- What may be written is in a scope that exists. -/
theorem Admits.lt_length
    (h : env.Admits declares w)
    (hCurrent : env.HasCurrent) :
    w.scope < env.scopes.length := by
  rcases h with hBound | ⟨-, hScope⟩
  · exact hBound.lt_length
  · rw [hScope]
    exact hCurrent

/- Writes that may be made do not admit any others. -/
theorem admits_of_writeAll
    (hCurrent : env.HasCurrent)
    (hAdmits : ∀ u ∈ ws, env.Admits declares u)
    (h : (env.writeAll ws).Admits declares w) :
    env.Admits declares w := by
  have hScopes := fun u hu =>
    (hAdmits u hu).lt_length hCurrent
  rcases h with hBound | ⟨hDeclares, hScope⟩
  · rcases (binds_writeAll hScopes).mp hBound with
      hBefore | ⟨u, hu, hScope, hName⟩
    · exact .inl hBefore
    · have hWritten := hAdmits u hu
      unfold Admits at hWritten ⊢
      rwa [hScope, hName] at hWritten
  · refine .inr ⟨hDeclares, ?_⟩
    rw [hScope, ← (sameShape_writeAll env ws).current]

end Environment

namespace Eval

open Environment

variable {declares : Prop}
variable {step : Eval α} {writes : Machine → List Write}

/-
  What two steps write one after the other: what the first
  one writes, and what the next one does if the first one
  succeeds.
-/
def writesThen
    (first : Machine → List Write)
    (step : Eval α)
    (next : α → Machine → List Write)
    (m : Machine) : List Write :=
  match step m with
  | .ok x after => first m ++ next x after
  | .error _ _ => first m

/- Nothing is added by a step that writes nothing. -/
theorem writesThen_nil
    (first : Machine → List Write)
    (step : Eval α) :
    writesThen first step (fun _ _ => []) = first := by
  funext m
  unfold writesThen
  split <;> simp

/-
  Steps and what they write.  However a step ends, it leaves
  the scopes with the writes made and nothing else changed,
  and it only makes writes that may be made.
-/
structure Logs
    (declares : Prop)
    (step : Eval α)
    (writes : Machine → List Write) : Prop where
  env_eq :
    ∀ m, m.env.HasCurrent →
      (final (step m)).env = m.env.writeAll (writes m)
  admits :
    ∀ m, m.env.HasCurrent →
      ∀ w ∈ writes m, m.env.Admits declares w

/- A step that does nothing to the scopes writes nothing. -/
theorem logs_of_env_eq
    (h : ∀ m, (final (step m)).env = m.env) :
    Logs declares step fun _ => [] where
  env_eq m _ := h m
  admits _ _ _ hw := by cases hw

/- Results and errors write nothing. -/
theorem logs_ofExcept
    (r : Except Stop α) :
    Logs declares (ofExcept r) fun _ => [] :=
  logs_of_env_eq fun _ => by cases r <;> rfl

/- Returning writes nothing. -/
theorem logs_pure
    (x : α) :
    Logs declares (pure x : Eval α) fun _ => [] :=
  logs_of_env_eq fun _ => rfl

/- Stopping writes nothing. -/
theorem logs_throw
    (s : Stop) :
    Logs declares (throw s : Eval α) fun _ => [] :=
  logs_of_env_eq fun _ => rfl

/- Looking a name up writes nothing. -/
theorem logs_lookup
    (name : Token) :
    Logs declares (lookup name) fun _ => [] := by
  apply logs_of_env_eq
  intro m
  unfold lookup
  split <;> rfl

/- Printing writes nothing to the scopes. -/
theorem logs_print
    (v : Value) :
    Logs declares (print v) fun _ => [] :=
  logs_of_env_eq fun _ => rfl

/- Assigning writes to the scope that the name is found in. -/
def assignment
    (name : Token)
    (v : Value)
    (m : Machine) : List Write :=
  match m.env.resolve name.lexeme with
  | some i => [⟨i, name.lexeme, v⟩]
  | none => []

/- Assigning writes to a name that is bound, or not at all. -/
theorem logs_assign
    (name : Token)
    (v : Value) :
    Logs declares (assign name v) (assignment name v) where
  env_eq m _ := by
    unfold assign assignment assign?
    cases m.env.resolve name.lexeme <;> rfl
  admits m _ w hw := by
    unfold assignment at hw
    split at hw
    · rename_i i hResolve
      rw [List.mem_singleton] at hw
      subst hw
      exact .inl (binds_of_resolve hResolve)
    · cases hw

/- What declaring a name writes to the current scope. -/
def definition
    (name : Token)
    (v : Value)
    (m : Machine) : List Write :=
  [⟨m.env.current, name.lexeme, v⟩]

/- Declaring writes to the current scope. -/
theorem logs_define
    (name : Token)
    (v : Value) :
    Logs True (define name v) (definition name v) where
  env_eq _ _ := rfl
  admits m _ w hw := by
    unfold definition at hw
    rw [List.mem_singleton] at hw
    subst hw
    exact .inr ⟨trivial, rfl⟩

namespace Logs

/- Where names may be declared, more may be written. -/
theorem mono
    (h : Logs declares step writes) :
    Logs True step writes where
  env_eq := h.env_eq
  admits m hCurrent w hw :=
    (h.admits m hCurrent w hw).imp_right
      fun hScope => ⟨trivial, hScope.2⟩

/- Steps one after the other write what either of them does. -/
theorem bind
    {next : α → Eval β}
    {nextWrites : α → Machine → List Write}
    (h : Logs declares step writes)
    (hNext : ∀ x, Logs declares (next x) (nextWrites x)) :
    Logs declares (step >>= next)
      (writesThen writes step nextWrites) where
  env_eq m hCurrent := by
    have hStep := h.env_eq m hCurrent
    rw [bind_apply]
    unfold writesThen
    cases hRun : step m with
    | ok x after =>
        rw [hRun] at hStep
        change after.env = _ at hStep
        have hAfter : after.env.HasCurrent := by
          rw [hStep]
          exact hCurrent.writeAll _
        dsimp only
        rw [(hNext x).env_eq after hAfter, writeAll_append,
          ← hStep]
    | error s after =>
        rw [hRun] at hStep
        exact hStep
  admits m hCurrent := by
    have hStep := h.env_eq m hCurrent
    have hAdmits := h.admits m hCurrent
    unfold writesThen
    cases hRun : step m with
    | ok x after =>
        rw [hRun] at hStep
        change after.env = _ at hStep
        have hAfter : after.env.HasCurrent := by
          rw [hStep]
          exact hCurrent.writeAll _
        intro w hw
        rcases List.mem_append.mp hw with hFirst | hLast
        · exact hAdmits w hFirst
        · have hw := (hNext x).admits after hAfter w hLast
          rw [hStep] at hw
          exact admits_of_writeAll hCurrent hAdmits hw
    | error s after => exact hAdmits

/-
  A scope of its own keeps what is written to it from the
  others, and makes room for names to be declared.
-/
theorem inScope
    (h : Logs True step writes)
    (hShape : KeepsShape step) :
    Logs False (inScope step) fun m =>
      (writes { m with env := m.env.push }).filter
        fun w => w.scope < m.env.scopes.length where
  env_eq m hCurrent := by
    have hStep := h.env_eq { m with env := m.env.push }
      (hasCurrent_push m.env)
    rw [inScope_eq hCurrent.scopes_ne_nil hShape, hStep,
      closed_writeAll]
    cases step { m with env := m.env.push } <;> rfl
  admits m _ w hw := by
    rcases List.mem_filter.mp hw with ⟨hw, hOuter⟩
    have hOuter : w.scope < m.env.scopes.length := by
      simpa using hOuter
    have hAdmits := h.admits { m with env := m.env.push }
      (hasCurrent_push m.env) w hw
    rcases hAdmits with hBound | ⟨-, hScope⟩
    · exact .inl ((binds_push hOuter).mp hBound)
    · have hInner : w.scope = m.env.scopes.length := hScope
      omega

/- Steps that declare nothing leave the same names bound. -/
theorem binds_iff
    (h : Logs False step writes)
    {m : Machine}
    (hCurrent : m.env.HasCurrent)
    (i : Nat)
    (name : String) :
    (final (step m)).env.Binds i name ↔
      m.env.Binds i name := by
  have hBound :
      ∀ w ∈ writes m, m.env.Binds w.scope w.name :=
    fun w hw => (h.admits m hCurrent w hw).resolve_right
      fun hDeclares => hDeclares.1
  rw [h.env_eq m hCurrent,
    binds_writeAll fun w hw => (hBound w hw).lt_length]
  apply or_iff_left_of_imp
  rintro ⟨w, hw, rfl, rfl⟩
  exact hBound w hw

end Logs

end Eval

end Lox
