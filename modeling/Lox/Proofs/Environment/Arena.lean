import Lox.Proofs.Environment.Opened
import Lox.Proofs.Environment.Stack
import Mathlib.Logic.Relation

/-
  The arena of scopes, whatever scope is made current.

  Not only may scopes be opened and closed: any scope that
  exists may be made the current one.  A scope that is closed
  while it is not the newest then stays in the arena, and the
  place of one that is given up is used again.  The links of
  the arena still lead to smaller indices, so that the walk
  outwards meets existing scopes only and comes to an end.

  Key definitions include:
    * `Environment.Step`
    * `Environment.IsReachable`
    * `Environment.IsNested`
    * `Environment.Walk`

  Key theorems include:
    * `Environment.IsNested.step`
    * `Environment.IsNested.exists_walk`
    * `Environment.acyclic_of_isReachable`
-/

namespace Lox

namespace Environment

variable {env after : Environment}
variable {i : Nat} {link : Option Nat} {path : List Nat}
variable {name : String} {v : Value}

------------------------------------------------------------
-- Definitions
------------------------------------------------------------

/-
  What can be done with an arena: one of the operations on
  scopes, or to make another existing scope the current one.
-/
inductive Step
    (env : Environment) : Environment → Prop where
  | perform
      (op : Scoping.Operation) :
      Step env (scoping.perform env op).1
  | jump
      {i : Nat}
      (h : i < env.scopes.length) :
      Step env (env.jump i)

/- The arenas that come of a new one. -/
def IsReachable
    (env : Environment) : Prop :=
  Relation.ReflTransGen Step fresh env

/-
  An arena in which the first scope is nested in none and
  every other scope in one before it, and in which there is a
  current scope.
-/
structure IsNested
    (env : Environment) : Prop where
  root : env.links[0]? = some none
  inner :
    ∀ i link, env.links[i + 1]? = some link →
      ∃ p, link = some p ∧ p ≤ i
  hasCurrent : env.HasCurrent

/-
  The scopes that the links lead through, one after the
  other.  There is no walk through a scope that is missing,
  and none that does not end.
-/
inductive Walk
    (env : Environment) : Option Nat → List Nat → Prop where
  | done :
      Walk env none []
  | through
      {i : Nat} {link : Option Nat} {path : List Nat}
      (hLink : env.links[i]? = some link)
      (more : Walk env link path) :
      Walk env (some i) (i :: path)

------------------------------------------------------------
-- Single Steps
------------------------------------------------------------

/- There is a link for every scope. -/
theorem length_links :
    env.links.length = env.scopes.length :=
  List.length_map _

/- A scope that is opened is nested in the current one. -/
theorem links_push :
    env.push.links = env.links ++ [some env.current] :=
  List.map_append

/- A new arena is nested. -/
theorem isNested_fresh :
    IsNested fresh where
  root := rfl
  inner i link hLink := by cases hLink
  hasCurrent := Nat.zero_lt_one

namespace IsNested

/- Links lead to smaller indices. -/
theorem parent_lt
    {p : Nat}
    (h : env.IsNested)
    (hLink : env.links[i]? = some (some p)) :
    p < i := by
  cases i with
  | zero => cases h.root.symm.trans hLink
  | succ i =>
      rcases h.inner i _ hLink with ⟨q, hq, hLess⟩
      cases hq
      exact Nat.lt_succ_of_le hLess

/- Being nested is a matter of the shape. -/
theorem of_sameShape
    (h : env.IsNested)
    (hShape : SameShape env after) :
    after.IsNested where
  root := hShape.links ▸ h.root
  inner := hShape.links ▸ h.inner
  hasCurrent := hShape.hasCurrent h.hasCurrent

/- Any existing scope may be made the current one. -/
theorem jump
    (h : env.IsNested)
    (hi : i < env.scopes.length) :
    (env.jump i).IsNested where
  root := h.root
  inner := h.inner
  hasCurrent := hi

/- A scope that is opened is nested in one before it. -/
theorem push
    (h : env.IsNested) :
    env.push.IsNested where
  root := by
    have hFirst := (List.getElem?_eq_some_iff.mp h.root).1
    rw [links_push, List.getElem?_append_left hFirst]
    exact h.root
  inner i link hLink := by
    rw [links_push] at hLink
    rcases Nat.lt_or_ge (i + 1) env.links.length with
      hOld | hNew
    · rw [List.getElem?_append_left hOld] at hLink
      exact h.inner i link hLink
    · rw [List.getElem?_append_right hNew,
        List.getElem?_singleton] at hLink
      split at hLink
      · rename_i hNewest
        have hCurrent := h.hasCurrent
        rw [HasCurrent, ← length_links] at hCurrent
        exact ⟨env.current, (Option.some.inj hLink).symm,
          by omega⟩
      · cases hLink
  hasCurrent := hasCurrent_push env

/-
  The global scope cannot be closed.  Closing another one
  goes back to the scope it is nested in, and gives its place
  up if it is the newest.
-/
theorem pop_cases
    (h : env.IsNested) :
    env.current = 0 ∧ env.pop = .error .globalScope ∨
      ∃ p, p < env.current ∧
        (env.current + 1 = env.scopes.length ∧
            env.pop = .ok ⟨env.scopes.dropLast, p⟩ ∨
          env.current + 1 < env.scopes.length ∧
            env.pop = .ok ⟨env.scopes, p⟩) := by
  have hCurrent := h.hasCurrent
  unfold HasCurrent at hCurrent
  by_cases hZero : env.current = 0
  · exact .inl ⟨hZero, by rw [pop, if_pos hZero]⟩
  right
  obtain ⟨i, hIndex⟩ := Nat.exists_eq_succ_of_ne_zero hZero
  have hScope := List.getElem?_eq_getElem hCurrent
  have hLink :
      env.links[i + 1]? =
        some env.scopes[env.current].parent := by
    simp only [links, List.getElem?_map, ← Nat.succ_eq_add_one,
      ← hIndex, hScope, Option.map_some]
  rcases h.inner i _ hLink with ⟨p, hParent, hLess⟩
  refine ⟨p, by omega, ?_⟩
  rw [pop, if_neg hZero, hScope, Option.bind_some, hParent]
  dsimp only
  by_cases hNewest : env.current + 1 = env.scopes.length
  · exact .inl ⟨hNewest, if_pos hNewest⟩
  · exact .inr ⟨by omega, if_neg hNewest⟩

/- What is left when a scope was closed. -/
theorem exists_of_pop
    (h : env.IsNested)
    (hPop : env.pop = .ok after) :
    ∃ p, p < env.current ∧
      (env.current + 1 = env.scopes.length ∧
          after = ⟨env.scopes.dropLast, p⟩ ∨
        env.current + 1 < env.scopes.length ∧
          after = ⟨env.scopes, p⟩) := by
  rcases h.pop_cases with
    ⟨-, hFailed⟩ | ⟨p, hLess, ⟨hNewest, hOk⟩ | ⟨hMore, hOk⟩⟩
  · cases hFailed.symm.trans hPop
  · cases hOk.symm.trans hPop
    exact ⟨p, hLess, .inl ⟨hNewest, rfl⟩⟩
  · cases hOk.symm.trans hPop
    exact ⟨p, hLess, .inr ⟨hMore, rfl⟩⟩

/- Closing a scope keeps an arena nested. -/
theorem pop
    (h : env.IsNested)
    (hPop : env.pop = .ok after) :
    after.IsNested := by
  rcases h.exists_of_pop hPop with
    ⟨p, hLess, ⟨hNewest, rfl⟩ | ⟨hMore, rfl⟩⟩
  · have hLinks :
        ∀ j, j < env.current →
          (links ⟨env.scopes.dropLast, p⟩)[j]? =
            env.links[j]? := by
      intro j hj
      simp only [links, List.map_dropLast]
      rw [List.getElem?_dropLast, if_pos]
      rw [List.length_map]
      omega
    refine ⟨?_, ?_, ?_⟩
    · rw [hLinks 0 (by omega)]
      exact h.root
    · intro i link hLink
      have hIndex := (List.getElem?_eq_some_iff.mp hLink).1
      rw [length_links, List.length_dropLast] at hIndex
      rw [hLinks (i + 1) (by omega)] at hLink
      exact h.inner i link hLink
    · unfold HasCurrent
      rw [List.length_dropLast]
      dsimp only
      omega
  · exact h.jump (by omega)

/- Whatever is done keeps an arena nested. -/
theorem step
    (h : env.IsNested)
    (hStep : Step env after) :
    after.IsNested := by
  cases hStep with
  | jump hi => exact h.jump hi
  | perform op =>
      cases op with
      | push => exact h.push
      | pop =>
          simp only [Scoping.perform, scoping]
          cases hPop : env.pop with
          | error f => exact h
          | ok env' => exact h.pop hPop
      | define name v =>
          exact h.of_sameShape (sameShape_insertAt _ _ _ _)
      | assign name v =>
          simp only [Scoping.perform, scoping]
          cases hAssign : env.assign? name v with
          | none => exact h
          | some env' =>
              exact h.of_sameShape
                (sameShape_of_assign? hAssign)
      | get name =>
          simp only [Scoping.perform, scoping]
          cases env.get? name with
          | none => exact h
          | some v => exact h
      | resolve name => exact h
      | contains name => exact h

/- What is removed by closing a scope is not used. -/
theorem eq_current_of_removed
    (h : env.IsNested)
    (hPop : env.pop = .ok after)
    (hBefore : i < env.scopes.length)
    (hAfter : after.scopes.length ≤ i) :
    i = env.current ∧ after.current ≠ i ∧
      some i ∉ after.links := by
  have hNested := h.pop hPop
  have hCurrent := hNested.hasCurrent
  unfold HasCurrent at hCurrent
  refine ⟨?_, by omega, ?_⟩
  · rcases h.exists_of_pop hPop with
      ⟨p, hLess, ⟨hNewest, rfl⟩ | ⟨hMore, rfl⟩⟩
    · rw [List.length_dropLast] at hAfter
      omega
    · exact absurd hBefore (Nat.not_lt_of_le hAfter)
  · intro hMem
    rcases List.getElem?_of_mem hMem with ⟨j, hLink⟩
    have hLess := hNested.parent_lt hLink
    have hIndex := (List.getElem?_eq_some_iff.mp hLink).1
    rw [length_links] at hIndex
    omega

/- The scopes that stay are the first ones, unchanged. -/
theorem prefix_of_pop
    (h : env.IsNested)
    (hPop : env.pop = .ok after) :
    after.scopes <+: env.scopes := by
  rcases h.exists_of_pop hPop with
    ⟨p, -, ⟨-, rfl⟩ | ⟨-, rfl⟩⟩
  · exact List.dropLast_prefix _
  · exact List.prefix_rfl

end IsNested

/- All arenas that come of a new one are nested. -/
theorem IsReachable.isNested
    (h : env.IsReachable) :
    env.IsNested := by
  induction h with
  | refl => exact isNested_fresh
  | tail _ hStep ih => exact ih.step hStep

------------------------------------------------------------
-- Walks
------------------------------------------------------------

/- From every scope of a nested arena there is a walk. -/
theorem IsNested.exists_walk
    (h : env.IsNested)
    (hi : i < env.scopes.length) :
    ∃ path, Walk env (some i) path := by
  -- The link of a scope leads to a smaller index.
  induction i using Nat.strongRecOn with
  | ind i ih =>
      have hIndex : i < env.links.length :=
        length_links.symm ▸ hi
      have hLink := List.getElem?_eq_getElem hIndex
      cases hParent : env.links[i] with
      | none =>
          rw [hParent] at hLink
          exact ⟨_, .through hLink .done⟩
      | some p =>
          rw [hParent] at hLink
          have hLess := h.parent_lt hLink
          rcases ih p hLess (Nat.lt_trans hLess hi) with
            ⟨path, hWalk⟩
          exact ⟨_, .through hLink hWalk⟩

namespace Walk

/- A walk meets existing scopes only. -/
theorem lt_length
    (h : Walk env link path) :
    ∀ j ∈ path, j < env.scopes.length := by
  induction h with
  | done => exact List.forall_mem_nil _
  | through hLink more ih =>
      rw [List.forall_mem_cons]
      refine ⟨?_, ih⟩
      rw [← length_links]
      exact (List.getElem?_eq_some_iff.mp hLink).1

/- In a nested arena, a walk goes to smaller indices. -/
theorem pairwise_gt
    (h : Walk env link path)
    (hNested : env.IsNested) :
    (∀ p ∈ link, ∀ j ∈ path, j ≤ p) ∧
      path.Pairwise (· > ·) := by
  induction h with
  | done => exact ⟨nofun, .nil⟩
  | @through i link path hLink more ih =>
      have hSmaller : ∀ j ∈ path, j < i := by
        intro j hj
        cases link with
        | none =>
            cases more
            cases hj
        | some p =>
            exact Nat.lt_of_le_of_lt (ih.1 p rfl j hj)
              (hNested.parent_lt hLink)
      refine ⟨?_, .cons hSmaller ih.2⟩
      rintro p ⟨⟩
      rw [List.forall_mem_cons]
      exact ⟨Nat.le_refl _,
        fun j hj => Nat.le_of_lt (hSmaller j hj)⟩

/- Looking a name up goes along the walk. -/
theorem resolveFrom_eq
    (h : Walk env (some i) path)
    (hNested : env.IsNested)
    (name : String) :
    env.resolveFrom name i =
      path.find? fun j => (env.valueIn j name).isSome := by
  generalize hStart : some i = start at h
  induction h generalizing i with
  | done => cases hStart
  | @through k link path hLink more ih =>
      cases hStart
      rw [Environment.resolveFrom_eq, hLink, Option.bind_some,
        List.find?_cons]
      cases hBound : (env.valueIn k name).isSome with
      | true => rfl
      | false =>
          rw [if_neg Bool.false_ne_true]
          cases link with
          | none =>
              cases more
              rfl
          | some p =>
              rw [Option.bind_some,
                if_pos (hNested.parent_lt hLink)]
              exact ih rfl

/- The depth is the length of the walk. -/
theorem depthFrom_eq
    (h : Walk env (some i) path)
    (hNested : env.IsNested) :
    env.depthFrom i = path.length := by
  generalize hStart : some i = start at h
  induction h generalizing i with
  | done => cases hStart
  | @through k link path hLink more ih =>
      cases hStart
      have hScope := hLink
      rw [links, List.getElem?_map] at hScope
      rcases Option.map_eq_some_iff.mp hScope with
        ⟨s, hs, hParent⟩
      rw [depthFrom, hs]
      dsimp only
      rw [hParent]
      cases link with
      | none =>
          cases more
          rfl
      | some p =>
          dsimp only
          rw [if_pos (hNested.parent_lt hLink), ih rfl]
          rfl

end Walk

/- The first value on a walk is that of the first scope. -/
theorem find?_bind_valueIn
    (env : Environment)
    (name : String)
    (path : List Nat) :
    ((path.find? fun j => (env.valueIn j name).isSome).bind
        fun j => env.valueIn j name) =
      path.findSome? fun j => env.valueIn j name := by
  induction path with
  | nil => rfl
  | cons j path ih =>
      rw [List.find?_cons, List.findSome?_cons]
      cases hValue : env.valueIn j name with
      | none => exact ih
      | some v => exact hValue

------------------------------------------------------------
-- Histories
------------------------------------------------------------

/-
  Whatever is done with a new arena, the first scope is
  nested in none, every other one in an existing scope before
  it, and there is a current scope.  Closing fails for the
  global scope only; a scope that is removed is the one that
  is closed, and neither the current one then nor the parent
  of one that stays.  The walk outwards from the current
  scope ends, and all scopes on it exist: the depth is its
  length, and a name is looked up and changed in the first
  scope on it that binds the name.
-/
theorem acyclic_of_isReachable
    (h : env.IsReachable) :
    (env.links[0]? = some none ∧
        (∀ i, 0 < i → i < env.scopes.length →
          ∃ p, env.links[i]? = some (some p) ∧ p < i) ∧
        env.current < env.scopes.length) ∧
      ((env.current = 0 ∧ env.pop = .error .globalScope ∨
          env.current ≠ 0 ∧ ∃ after, env.pop = .ok after) ∧
        ∀ after, env.pop = .ok after →
          after.scopes <+: env.scopes ∧
            after.current < after.scopes.length ∧
            ∀ i, i < env.scopes.length →
              after.scopes.length ≤ i →
                i = env.current ∧ after.current ≠ i ∧
                  some i ∉ after.links) ∧
      ∃ path, Walk env (some env.current) path ∧
        path.Pairwise (· > ·) ∧
        (∀ j ∈ path, j < env.scopes.length) ∧
        env.depth = path.length ∧
        ∀ name,
          env.resolve name =
              (path.find? fun j =>
                (env.valueIn j name).isSome) ∧
            env.get? name =
              (path.findSome? fun j => env.valueIn j name) ∧
            ∀ v, env.assign? name v =
              (path.find? fun j =>
                (env.valueIn j name).isSome).map
                fun j => env.insertAt j name v := by
  have hNested := h.isNested
  refine ⟨⟨hNested.root, ?_, hNested.hasCurrent⟩, ⟨?_, ?_⟩, ?_⟩
  · intro i hPositive hi
    obtain ⟨j, rfl⟩ :=
      Nat.exists_eq_succ_of_ne_zero (Nat.ne_of_gt hPositive)
    have hIndex : j + 1 < env.links.length :=
      length_links.symm ▸ hi
    have hLink := List.getElem?_eq_getElem hIndex
    rcases hNested.inner j _ hLink with ⟨p, hp, hLess⟩
    exact ⟨p, hp ▸ hLink, Nat.lt_succ_of_le hLess⟩
  · rcases hNested.pop_cases with
      hFailed | ⟨p, hLess, ⟨-, hOk⟩ | ⟨-, hOk⟩⟩
    · exact .inl hFailed
    · exact .inr ⟨Nat.ne_of_gt (Nat.zero_lt_of_lt hLess),
        _, hOk⟩
    · exact .inr ⟨Nat.ne_of_gt (Nat.zero_lt_of_lt hLess),
        _, hOk⟩
  · intro after hPop
    exact ⟨hNested.prefix_of_pop hPop,
      (hNested.pop hPop).hasCurrent,
      fun i => hNested.eq_current_of_removed hPop⟩
  · rcases hNested.exists_walk hNested.hasCurrent with
      ⟨path, hWalk⟩
    refine ⟨path, hWalk, (hWalk.pairwise_gt hNested).2,
      hWalk.lt_length, hWalk.depthFrom_eq hNested, ?_⟩
    intro name
    have hResolve : env.resolve name = _ :=
      hWalk.resolveFrom_eq hNested name
    refine ⟨hResolve, ?_, ?_⟩
    · rw [← find?_bind_valueIn, ← hResolve]
      rfl
    · intro v
      rw [assign?, hResolve]

/-
  The scopes that are left when the outer one of two opened
  scopes is closed first, and another one is opened then.
-/
def strayed : Environment :=
  ⟨[⟨none, []⟩, ⟨some 0, []⟩, ⟨some 1, []⟩, ⟨some 0, []⟩], 3⟩

/-
  Scopes that were closed out of turn stay in the arena, and
  the walk from the current scope passes them by.
-/
theorem acyclic_of_isReachable_strayed :
    strayed.IsReachable ∧
      strayed.scopes.length = 4 ∧
      ∃ path, Walk strayed (some 3) path ∧
        path = [3, 0] ∧
        strayed.depth = path.length ∧
        strayed.resolve "x" = none ∧
        ∃ after, strayed.pop = .ok after ∧
          after.scopes <+: strayed.scopes ∧
          after.scopes.length = 3 ∧
          after.current ≠ 3 ∧ some 3 ∉ after.links := by
  have hReachable : strayed.IsReachable :=
    (((((.refl : IsReachable fresh).tail
      (.perform .push)).tail (.perform .push)).tail
      (.jump (by decide : 1 < 3))).tail
      (.perform .pop)).tail (.perform .push)
  rcases acyclic_of_isReachable hReachable with
    ⟨-, ⟨-, hPop⟩, path, hWalk, -, -, hDepth, hNames⟩
  rcases hPop _ rfl with ⟨hPrefix, -, hRemoved⟩
  have hPath : path = [3, 0] := by
    rcases hWalk with _ | ⟨hFirst, _ | ⟨hSecond, hDone⟩⟩
    · cases hFirst
    · cases hFirst
      cases hSecond
      cases hDone
      rfl
  refine ⟨hReachable, rfl, path, hWalk, hPath, hDepth, ?_, _,
    rfl, hPrefix, rfl,
    (hRemoved 3 (by decide) (by decide)).2⟩
  rw [(hNames "x").1, hPath]
  rfl

end Environment

end Lox
