import Lox.Proofs.Evaluation.Scopes

/-
  The arena of scopes is a stack of maps.

  As long as scopes are only opened and closed, and names
  bound, assigned and looked up, every scope is nested in the
  one before it and the last one is current.  The arena then
  answers like a stack of maps from names to values, and a
  scope that is closed leaves nothing behind.

  Key definitions include:
    * `Dictionary`
    * `Stack`
    * `Scoping`
    * `Scoping.performAll`
    * `Environment.stack`
    * `Environment.IsLinear`

  Key theorems include:
    * `Environment.IsLinear.perform`
    * `Environment.performAll_eq_stack`
-/

namespace Lox

------------------------------------------------------------
-- Stacks of Maps
------------------------------------------------------------

/- A map from names to values. -/
abbrev Dictionary :=
  String → Option Value

namespace Dictionary

/- The map that holds no name. -/
def empty : Dictionary :=
  fun _ => none

/- Map a name to a value, and other names as before. -/
def insert
    (name : String)
    (v : Value)
    (d : Dictionary) : Dictionary :=
  fun other => if other = name then some v else d other

end Dictionary

/- Maps on top of one another, the innermost first. -/
abbrev Stack :=
  List Dictionary

namespace Stack

/- The stack of one map, which holds no name. -/
def fresh : Stack :=
  [.empty]

/- Put a map without names on top. -/
def push
    (st : Stack) : Stack :=
  .empty :: st

/- Take the top map off, unless it is the only one. -/
def pop : Stack → Except Fault Stack
  | _ :: d :: ds => .ok (d :: ds)
  | _ => .error .globalScope

/- Map a name to a value in the top map. -/
def define
    (name : String)
    (v : Value) : Stack → Stack
  | [] => []
  | d :: ds => d.insert name v :: ds

/- How many maps are below the first that holds a name. -/
def resolve
    (name : String) : Stack → Option Nat
  | [] => none
  | d :: ds =>
      if (d name).isSome then some ds.length
      else resolve name ds

/- The value of a name in the first map that holds it. -/
def get?
    (name : String)
    (st : Stack) : Option Value :=
  st.findSome? fun d => d name

/- Change a name in the first map that holds it. -/
def assign?
    (name : String)
    (v : Value) : Stack → Option Stack
  | [] => none
  | d :: ds =>
      if (d name).isSome then some (d.insert name v :: ds)
      else (assign? name v ds).map (d :: ·)

/- Whether some map holds a name. -/
def contains
    (name : String)
    (st : Stack) : Bool :=
  st.any fun d => (d name).isSome

end Stack

------------------------------------------------------------
-- Operations
------------------------------------------------------------

/- What can be done with scopes. -/
structure Scoping (σ : Type) where
  push : σ → σ
  pop : σ → Except Fault σ
  define : String → Value → σ → σ
  assign? : String → Value → σ → Option σ
  get? : String → σ → Option Value
  resolve : String → σ → Option Nat
  contains : String → σ → Bool

namespace Scoping

/- A request to do something with scopes. -/
inductive Operation where
  | push
  | pop
  | define (name : String) (v : Value)
  | assign (name : String) (v : Value)
  | get (name : String)
  | resolve (name : String)
  | contains (name : String)
deriving DecidableEq

/- What comes of a request. -/
inductive Answer where
  | done
  | failed (f : Fault)
  | value (v : Value)
  | place (i : Option Nat)
  | truth (b : Bool)
deriving DecidableEq

variable {σ : Type}

/- Do one thing; what fails leaves the scopes alone. -/
def perform
    (scoping : Scoping σ)
    (s : σ) : Operation → σ × Answer
  | .push => (scoping.push s, .done)
  | .pop =>
      match scoping.pop s with
      | .ok s' => (s', .done)
      | .error f => (s, .failed f)
  | .define name v => (scoping.define name v s, .done)
  | .assign name v =>
      match scoping.assign? name v s with
      | some s' => (s', .truth true)
      | none => (s, .truth false)
  | .get name =>
      match scoping.get? name s with
      | some v => (s, .value v)
      | none => (s, .failed (.unbound name))
  | .resolve name => (s, .place (scoping.resolve name s))
  | .contains name => (s, .truth (scoping.contains name s))

/- Do one thing after the other. -/
def performAll
    (scoping : Scoping σ)
    (s : σ) : List Operation → σ × List Answer
  | [] => (s, [])
  | op :: ops =>
      let (s', a) := scoping.perform s op
      let (s'', as) := scoping.performAll s' ops
      (s'', a :: as)

end Scoping

/- Operations on stacks of maps. -/
def Stack.scoping : Scoping Stack where
  push := push
  pop := pop
  define := define
  assign? := assign?
  get? := get?
  resolve := resolve
  contains := contains

/- Operations on arenas of scopes. -/
def Environment.scoping : Scoping Environment where
  push := push
  pop := pop
  define name v env := env.define name v
  assign? name v env := env.assign? name v
  get? name env := env.get? name
  resolve name env := env.resolve name
  contains name env := env.contains name

------------------------------------------------------------
-- Arenas as Stacks
------------------------------------------------------------

/- The bindings of a scope as a map. -/
def Scope.dictionary
    (s : Scope) : Dictionary :=
  fun name => s.bindings.find? name

namespace Environment

variable {env : Environment} {s : Scope}
variable {n i : Nat} {name : String} {v : Value}

/- The first scopes of an arena, the last of them on top. -/
def stackUpTo
    (env : Environment)
    (n : Nat) : Stack :=
  ((env.scopes.take n).map Scope.dictionary).reverse

/- All scopes of an arena, the last of them on top. -/
def stack
    (env : Environment) : Stack :=
  env.stackUpTo env.scopes.length

/- The scope before a scope. -/
def before : Nat → Option Nat
  | 0 => none
  | i + 1 => some i

/-
  An arena in which every scope is nested in the one before
  it, and the last one is current.
-/
structure IsLinear
    (env : Environment) : Prop where
  links_eq :
    env.links = (List.range env.scopes.length).map before
  current_add_one : env.current + 1 = env.scopes.length

/- A new arena is linear. -/
theorem isLinear_fresh :
    IsLinear fresh :=
  ⟨rfl, rfl⟩

/- One more scope lies on top of those before it. -/
theorem stackUpTo_succ
    (h : env.scopes[n]? = some s) :
    env.stackUpTo (n + 1) =
      s.dictionary :: env.stackUpTo n := by
  simp [stackUpTo, List.take_add_one, h]

/- There are as many maps as scopes. -/
theorem length_stackUpTo
    (h : n ≤ env.scopes.length) :
    (env.stackUpTo n).length = n := by
  simp [stackUpTo, h]

/- A stack of no scopes is empty. -/
theorem stackUpTo_zero :
    env.stackUpTo 0 = [] :=
  rfl

/- Binding a name changes its scope's map. -/
theorem dictionary_insert :
    Scope.dictionary
        { s with bindings := s.bindings.insert name v } =
      s.dictionary.insert name v := by
  funext other
  unfold Scope.dictionary Dictionary.insert
  by_cases hOther : other = name
  · rw [hOther, if_pos rfl, Bindings.find?_insert_self]
  · rw [if_neg hOther,
      Bindings.find?_insert_of_ne _ _ _ _ hOther]

/- Scopes before the one that is written to stay. -/
theorem stackUpTo_insertAt_of_le
    (h : n ≤ i) :
    (env.insertAt i name v).stackUpTo n =
      env.stackUpTo n := by
  unfold stackUpTo insertAt
  congr 2
  apply List.ext_getElem?
  intro j
  by_cases hj : j < n
  · have hOther : ¬ i = j := by omega
    rw [List.getElem?_take_of_lt hj,
      List.getElem?_take_of_lt hj, List.getElem?_modify]
    simp only [if_neg hOther, Option.map_eq_map,
      Option.map_id']
  · rw [List.getElem?_take_eq_none (by omega),
      List.getElem?_take_eq_none (by omega)]

/- A scope that is written to, and another one. -/
theorem getElem?_insertAt
    (h : env.scopes[n]? = some s) :
    (env.insertAt i name v).scopes[n]? =
      some (if i = n then
        { s with bindings := s.bindings.insert name v }
        else s) := by
  unfold insertAt
  rw [List.getElem?_modify, h, Option.map_eq_map,
    Option.map_some]

/- Writing to a scope adds none. -/
theorem length_insertAt :
    (env.insertAt i name v).scopes.length =
      env.scopes.length := by
  simp [insertAt]

------------------------------------------------------------
-- Lookup
------------------------------------------------------------

namespace IsLinear

/- A scope is nested in the one before it. -/
theorem parent_eq
    (h : env.IsLinear)
    (hs : env.scopes[i]? = some s) :
    s.parent = before i := by
  have hLength : i < env.scopes.length :=
    (List.getElem?_eq_some_iff.mp hs).1
  have hLink := congrArg (fun links => links[i]?) h.links_eq
  simpa [links, hs, List.getElem?_range hLength] using hLink

/- The last scope is the current one. -/
theorem exists_current
    (h : env.IsLinear) :
    ∃ s, env.scopes[env.current]? = some s := by
  have hLess : env.current < env.scopes.length := by
    have := h.current_add_one
    omega
  exact ⟨_, List.getElem?_eq_getElem hLess⟩

/- Going outwards means going down the stack. -/
theorem resolveFrom_eq
    (h : env.IsLinear)
    (hi : i < env.scopes.length) :
    env.resolveFrom name i =
      (env.stackUpTo (i + 1)).resolve name := by
  induction i with
  | zero =>
      have hs := List.getElem?_eq_getElem hi
      have hParent := h.parent_eq hs
      rw [resolveFrom, hs, stackUpTo_succ hs]
      simp only [hParent, before, Stack.resolve,
        stackUpTo_zero]
      rfl
  | succ i ih =>
      have hs := List.getElem?_eq_getElem hi
      have hParent := h.parent_eq hs
      rw [resolveFrom, hs, stackUpTo_succ hs]
      simp only [hParent, before, Stack.resolve,
        length_stackUpTo (Nat.le_of_lt hi),
        if_pos (Nat.lt_succ_self i), ih (by omega)]
      rfl

/- The current scope is on top of the stack. -/
theorem resolve_eq
    (h : env.IsLinear)
    (name : String) :
    env.resolve name = env.stack.resolve name := by
  have hCurrent := h.current_add_one
  rw [resolve, h.resolveFrom_eq (by omega), hCurrent, stack]

/- As many scopes are nested as there are before the last. -/
theorem depthFrom_eq
    (h : env.IsLinear)
    (hi : i < env.scopes.length) :
    env.depthFrom i = i + 1 := by
  induction i with
  | zero =>
      have hs := List.getElem?_eq_getElem hi
      rw [depthFrom, hs]
      simp [h.parent_eq hs, before]
  | succ i ih =>
      have hs := List.getElem?_eq_getElem hi
      rw [depthFrom, hs]
      simp [h.parent_eq hs, before, ih (by omega)]

/- Every scope of the arena is in use. -/
theorem depth_eq
    (h : env.IsLinear) :
    env.depth = env.scopes.length := by
  have hCurrent := h.current_add_one
  rw [depth, h.depthFrom_eq (by omega), hCurrent]

end IsLinear

/- A name is found among the scopes there are. -/
theorem lt_of_resolve_stackUpTo
    (hn : n ≤ env.scopes.length)
    (h : (env.stackUpTo n).resolve name = some i) :
    i < n := by
  induction n with
  | zero => cases h
  | succ n ih =>
      have hs := List.getElem?_eq_getElem
        (Nat.lt_of_succ_le hn)
      rw [stackUpTo_succ hs, Stack.resolve,
        length_stackUpTo (by omega)] at h
      split at h
      · rw [Option.some.injEq] at h
        omega
      · exact Nat.lt_succ_of_lt (ih (by omega) h)

/- The value of a name is the one in the scope found. -/
theorem get?_stackUpTo
    (hn : n ≤ env.scopes.length) :
    (env.stackUpTo n).get? name =
      ((env.stackUpTo n).resolve name).bind fun i =>
        env.scopes[i]?.bind fun s =>
          s.bindings.find? name := by
  induction n with
  | zero => rfl
  | succ n ih =>
      have hs := List.getElem?_eq_getElem
        (Nat.lt_of_succ_le hn)
      have hMore := ih (by omega)
      rw [Stack.get?] at hMore
      rw [stackUpTo_succ hs, Stack.resolve, Stack.get?,
        List.findSome?_cons, length_stackUpTo (by omega)]
      cases hFind : (env.scopes[n].dictionary name) with
      | some w =>
          rw [if_pos Option.isSome_some, Option.bind_some,
            hs, Option.bind_some]
          exact hFind.symm
      | none => exact hMore

/- Some map holds a name if the name is found. -/
theorem contains_stackUpTo
    (st : Stack) :
    st.contains name = (st.resolve name).isSome := by
  induction st with
  | nil => rfl
  | cons d ds ih =>
      rw [Stack.contains] at ih
      rw [Stack.contains, List.any_cons, Stack.resolve, ih]
      split
      · rename_i hFound
        rw [hFound, Bool.true_or, Option.isSome_some]
      · rename_i hFound
        rw [Bool.not_eq_true] at hFound
        rw [hFound, Bool.false_or]

/- The change of a name is made in the scope found. -/
theorem assign?_stackUpTo
    (hn : n ≤ env.scopes.length) :
    (env.stackUpTo n).assign? name v =
      ((env.stackUpTo n).resolve name).map fun i =>
        (env.insertAt i name v).stackUpTo n := by
  induction n with
  | zero => rfl
  | succ n ih =>
      have hs := List.getElem?_eq_getElem
        (Nat.lt_of_succ_le hn)
      have hStack : ∀ i,
          (env.insertAt i name v).stackUpTo (n + 1) =
            (if i = n then
              env.scopes[n].dictionary.insert name v
              else env.scopes[n].dictionary) ::
              (env.insertAt i name v).stackUpTo n := by
        intro i
        rw [stackUpTo_succ (getElem?_insertAt hs)]
        split
        · rw [dictionary_insert]
        · rfl
      rw [stackUpTo_succ hs, Stack.assign?, Stack.resolve,
        length_stackUpTo (by omega), ih (by omega)]
      split
      · rw [Option.map_some, hStack, if_pos rfl,
          stackUpTo_insertAt_of_le (Nat.le_refl n)]
      · rw [Option.map_map]
        cases hFound : (env.stackUpTo n).resolve name with
        | none => rfl
        | some i =>
            have hLess :=
              lt_of_resolve_stackUpTo (by omega) hFound
            rw [Option.map_some, Option.map_some, hStack,
              if_neg (by omega)]
            rfl

------------------------------------------------------------
-- Single Operations
------------------------------------------------------------

namespace IsLinear

/- Writing to a scope keeps an arena linear. -/
theorem insertAt
    (h : env.IsLinear)
    (i : Nat)
    (name : String)
    (v : Value) :
    (env.insertAt i name v).IsLinear := by
  have hShape := sameShape_insertAt env i name v
  refine ⟨?_, ?_⟩
  · rw [← hShape.links, length_insertAt]
    exact h.links_eq
  · rw [← hShape.current, length_insertAt]
    exact h.current_add_one

/- An opened scope is on top. -/
theorem push
    (h : env.IsLinear) :
    env.push.stack = env.stack.push ∧ env.push.IsLinear := by
  have hCurrent := h.current_add_one
  refine ⟨?_, ?_, ?_⟩
  · have hTop :
        env.push.scopes[env.scopes.length]? =
          some ⟨some env.current, []⟩ := by
      simp [Environment.push]
    have hBelow :
        env.push.stackUpTo env.scopes.length = env.stack := by
      simp [stackUpTo, stack, Environment.push]
    rw [stack, Environment.push, List.length_append,
      List.length_singleton]
    rw [Environment.push] at hTop hBelow
    rw [stackUpTo_succ hTop, hBelow]
    rfl
  · have hLinks := h.links_eq
    unfold links at hLinks
    simp only [links, Environment.push, List.map_append,
      hLinks, List.length_append, List.length_singleton,
      List.range_succ, List.map_singleton,
      ← hCurrent, before]
  · simp [Environment.push]

/- The top scope is closed, unless it is the only one. -/
theorem pop
    (h : env.IsLinear) :
    (env.pop.map stack = env.stack.pop) ∧
      ∀ env', env.pop = .ok env' → env'.IsLinear := by
  have hCurrent := h.current_add_one
  rcases h.exists_current with ⟨s, hs⟩
  have hParent := h.parent_eq hs
  rw [Environment.pop, hs, Option.bind_some, hParent]
  cases hIndex : env.current with
  | zero =>
      rw [hIndex, Nat.zero_add] at hCurrent
      rw [hIndex] at hs
      rw [if_pos rfl, stack, ← hCurrent, stackUpTo_succ hs]
      exact ⟨rfl, fun env' hPop => by cases hPop⟩
  | succ i =>
      rw [hIndex] at hCurrent hs
      have hLess : i < env.scopes.length := by omega
      have hBelow := List.getElem?_eq_getElem hLess
      rw [if_neg (Nat.succ_ne_zero i), before]
      dsimp only
      rw [if_pos hCurrent]
      refine ⟨?_, ?_⟩
      · rw [stack, ← hCurrent, stackUpTo_succ hs,
          stackUpTo_succ hBelow]
        simp only [Except.map, Stack.pop]
        have hTaken :
            env.scopes.dropLast = env.scopes.take (i + 1) := by
          rw [List.dropLast_eq_take, ← hCurrent]
          rfl
        rw [← stackUpTo_succ hBelow, stack, stackUpTo,
          stackUpTo, hTaken, List.take_length]
      · rintro env' ⟨⟩
        refine ⟨?_, ?_⟩
        · have hLinks := h.links_eq
          unfold links at hLinks
          simp only [links, List.map_dropLast, hLinks,
            List.length_dropLast, ← hCurrent,
            List.range_succ, List.map_append,
            List.map_singleton, List.dropLast_concat]
          simp [List.range_succ]
        · simp only [List.length_dropLast]
          omega

/- A name is bound in the top scope. -/
theorem define
    (h : env.IsLinear)
    (name : String)
    (v : Value) :
    (env.define name v).stack = env.stack.define name v ∧
      (env.define name v).IsLinear := by
  have hCurrent := h.current_add_one
  rcases h.exists_current with ⟨s, hs⟩
  refine ⟨?_, h.insertAt _ name v⟩
  rw [Environment.define, stack, stack, length_insertAt,
    ← hCurrent, stackUpTo_succ hs,
    stackUpTo_succ (getElem?_insertAt hs), if_pos rfl,
    dictionary_insert,
    stackUpTo_insertAt_of_le (Nat.le_refl _)]
  rfl

/- A name is changed in the same scope. -/
theorem assign?
    (h : env.IsLinear)
    (name : String)
    (v : Value) :
    (env.assign? name v).map stack =
        env.stack.assign? name v ∧
      ∀ env', env.assign? name v = some env' →
        env'.IsLinear := by
  refine ⟨?_, ?_⟩
  · rw [Environment.assign?, h.resolve_eq, stack,
      assign?_stackUpTo (Nat.le_refl _), Option.map_map]
    congr 1
    funext i
    rw [Function.comp_apply, stack, length_insertAt]
  · intro env' hAssign
    rcases Option.map_eq_some_iff.mp hAssign with
      ⟨i, -, rfl⟩
    exact h.insertAt i name v

/- A name has the same value. -/
theorem get?_eq
    (h : env.IsLinear)
    (name : String) :
    env.get? name = env.stack.get? name := by
  rw [stack, get?_stackUpTo (Nat.le_refl _),
    Environment.get?, h.resolve_eq]
  rfl

/- The same names are bound. -/
theorem contains_eq
    (h : env.IsLinear)
    (name : String) :
    env.contains name = env.stack.contains name := by
  rw [Environment.contains, h.resolve_eq,
    contains_stackUpTo]

------------------------------------------------------------
-- Runs
------------------------------------------------------------

/-
  A linear arena answers like its stack, becomes what the
  stack becomes, and stays linear.
-/
theorem perform
    (h : env.IsLinear)
    (op : Scoping.Operation) :
    Stack.scoping.perform env.stack op =
        ((scoping.perform env op).1.stack,
          (scoping.perform env op).2) ∧
      (scoping.perform env op).1.IsLinear := by
  cases op with
  | push =>
      rcases h.push with ⟨hStack, hLinear⟩
      exact ⟨congrArg (·, _) hStack.symm, hLinear⟩
  | pop =>
      rcases h.pop with ⟨hStack, hLinear⟩
      simp only [Scoping.perform, scoping, Stack.scoping,
        ← hStack]
      cases hPop : env.pop with
      | error f => exact ⟨rfl, h⟩
      | ok env' => exact ⟨rfl, hLinear env' hPop⟩
  | define name v =>
      rcases h.define name v with ⟨hStack, hLinear⟩
      exact ⟨congrArg (·, _) hStack.symm, hLinear⟩
  | assign name v =>
      rcases h.assign? name v with ⟨hStack, hLinear⟩
      simp only [Scoping.perform, scoping, Stack.scoping,
        ← hStack]
      cases hAssign : env.assign? name v with
      | none => exact ⟨rfl, h⟩
      | some env' => exact ⟨rfl, hLinear env' hAssign⟩
  | get name =>
      simp only [Scoping.perform, scoping, Stack.scoping,
        ← h.get?_eq]
      cases hGet : env.get? name with
      | none => exact ⟨rfl, h⟩
      | some v => exact ⟨rfl, h⟩
  | resolve name =>
      simp only [Scoping.perform, scoping, Stack.scoping,
        ← h.resolve_eq]
      exact ⟨trivial, h⟩
  | contains name =>
      simp only [Scoping.perform, scoping, Stack.scoping,
        ← h.contains_eq]
      exact ⟨trivial, h⟩

/- So it does whatever is done with it. -/
theorem performAll
    (h : env.IsLinear)
    (ops : List Scoping.Operation) :
    Stack.scoping.performAll env.stack ops =
        ((scoping.performAll env ops).1.stack,
          (scoping.performAll env ops).2) ∧
      (scoping.performAll env ops).1.IsLinear := by
  induction ops generalizing env with
  | nil => exact ⟨rfl, h⟩
  | cons op ops ih =>
      rcases h.perform op with ⟨hAnswer, hLinear⟩
      rcases ih hLinear with ⟨hAnswers, hLast⟩
      refine ⟨?_, hLast⟩
      simp only [Scoping.performAll, hAnswer, hAnswers]

/- Only the global scope cannot be closed. -/
theorem perform_pop_iff
    (h : env.IsLinear) :
    scoping.perform env .pop =
        (env, .failed .globalScope) ↔
      env.depth = 1 := by
  have hCurrent := h.current_add_one
  rcases h.exists_current with ⟨s, hs⟩
  have hParent := h.parent_eq hs
  rw [h.depth_eq, Scoping.perform]
  simp only [scoping]
  rw [Environment.pop, hs, Option.bind_some, hParent]
  cases hIndex : env.current with
  | zero =>
      rw [hIndex, Nat.zero_add] at hCurrent
      simp [← hCurrent]
  | succ i =>
      rw [hIndex] at hCurrent
      rw [if_neg (Nat.succ_ne_zero i), before]
      dsimp only
      rw [if_pos hCurrent]
      simp only [Prod.mk.injEq, reduceCtorEq, and_false,
        false_iff]
      omega

end IsLinear

/-
  Whatever is done with a new arena, it answers like a stack
  of maps and becomes what the stack becomes.  The global
  scope cannot be closed, and trying changes nothing.  Every
  scope is nested in the one before it, the last one is
  current, and there is no scope but those that are nested.
-/
theorem performAll_eq_stack
    (ops : List Scoping.Operation) :
    let env := (scoping.performAll fresh ops).1
    (scoping.performAll fresh ops).2 =
        (Stack.scoping.performAll .fresh ops).2 ∧
      env.stack = (Stack.scoping.performAll .fresh ops).1 ∧
      (scoping.perform env .pop =
          (env, .failed .globalScope) ↔
        env.depth = 1) ∧
      env.links =
        (List.range env.scopes.length).map before ∧
      env.current + 1 = env.scopes.length ∧
      env.scopes.length = env.depth := by
  rcases isLinear_fresh.performAll ops with
    ⟨hAnswers, hLinear⟩
  have hFresh : fresh.stack = Stack.fresh := rfl
  rw [hFresh] at hAnswers
  rw [hAnswers]
  exact ⟨rfl, rfl, hLinear.perform_pop_iff,
    hLinear.links_eq, hLinear.current_add_one,
    hLinear.depth_eq.symm⟩

end Environment

end Lox
