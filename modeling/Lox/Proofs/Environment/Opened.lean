import Lox.Proofs.Evaluation.Writes

/-
  Scopes that are opened one inside the other.

  A name is found by the links of the scopes and by what each
  scope binds by itself.  Opening a scope binds no name, and
  closing it takes away what it binds, and nothing else.

  Key definitions include:
    * `Environment.pushes`

  Key theorems include:
    * `Environment.resolveFrom_eq`
    * `Environment.resolveFrom_congr`
    * `Environment.valueIn_insertAt`
    * `Environment.valueIn_closed`
    * `Environment.links_pushes`
    * `Environment.pop_of_pushes`
-/

namespace Lox

namespace Environment

variable {a b env inner : Environment} {i j k : Nat}
variable {name other : String} {v : Value}

------------------------------------------------------------
-- Bindings
------------------------------------------------------------

/- A scope that does not exist binds nothing. -/
theorem valueIn_eq_none
    (h : env.scopes.length ≤ i) :
    env.valueIn i name = none := by
  rw [valueIn, List.getElem?_eq_none h]
  rfl

/- Binding a name gives it its value, and changes no other. -/
theorem valueIn_insertAt :
    (env.insertAt i name v).valueIn j other =
      if (j = i ∧ other = name) ∧ i < env.scopes.length then
        some v
      else env.valueIn j other := by
  by_cases hLength : i < env.scopes.length
  · by_cases hSame : j = i ∧ other = name
    · rw [if_pos ⟨hSame, hLength⟩, hSame.1, hSame.2]
      exact valueIn_insertAt_self hLength
    · rw [if_neg fun h => hSame h.1]
      exact valueIn_insertAt_of_ne fun hScope hName =>
        hSame ⟨hScope, hName⟩
  · have hAlone : env.insertAt i name v = env := by
      unfold insertAt
      rw [List.modify_eq_self (Nat.le_of_not_lt hLength)]
    rw [if_neg fun h => hLength h.2, hAlone]

/- A scope that was just opened binds nothing. -/
theorem valueIn_push :
    env.push.valueIn i name = env.valueIn i name := by
  unfold valueIn push
  dsimp only
  rcases Nat.lt_trichotomy i env.scopes.length with
    hLess | rfl | hMore
  · rw [List.getElem?_append_left hLess]
  · rw [List.getElem?_concat_length,
      List.getElem?_eq_none (Nat.le_refl _)]
    rfl
  · rw [List.getElem?_eq_none, List.getElem?_eq_none]
    · exact Nat.le_of_lt hMore
    · rw [List.length_append, List.length_singleton]
      exact hMore

/- Opening a scope on both sides keeps the same shape. -/
theorem SameShape.push
    (h : SameShape a b) :
    SameShape a.push b.push := by
  refine ⟨?_, h.length_eq⟩
  have hLinks := h.links
  unfold Environment.links at hLinks
  unfold Environment.links Environment.push
  simp only [List.map_append, hLinks, h.current,
    List.map_cons, List.map_nil]

/- Opening a scope adds one to their number. -/
theorem length_of_opened
    (h : SameShape env.push inner) :
    inner.scopes.length = env.scopes.length + 1 := by
  rw [← h.length_eq]
  exact List.length_append

/- A scope that is closed takes its own bindings with it. -/
theorem valueIn_closed
    (h : SameShape env.push inner) :
    (env.closed inner).valueIn i name =
      if i < env.scopes.length then inner.valueIn i name
      else none := by
  unfold valueIn closed
  rw [List.getElem?_dropLast, length_of_opened h,
    Nat.add_sub_cancel]
  split <;> rfl

------------------------------------------------------------
-- Walking Outwards
------------------------------------------------------------

/- The walk reads the links and the bindings of scopes. -/
theorem resolveFrom_eq
    (env : Environment)
    (name : String)
    (i : Nat) :
    env.resolveFrom name i =
      env.links[i]?.bind fun link =>
        if (env.valueIn i name).isSome then some i
        else
          link.bind fun p =>
            if p < i then env.resolveFrom name p
            else none := by
  rw [resolveFrom, links, List.getElem?_map, valueIn]
  cases env.scopes[i]? with
  | none => rfl
  | some s =>
      dsimp only [Option.map_some, Option.bind_some]
      split
      · rfl
      · cases s.parent <;> rfl

/- Only the scopes on the way can make a difference. -/
theorem resolveFrom_congr
    (h :
      ∀ j ≤ i, a.links[j]? = b.links[j]? ∧
        a.valueIn j name = b.valueIn j name) :
    a.resolveFrom name i = b.resolveFrom name i := by
  induction i using Nat.strongRecOn with
  | ind i ih =>
      rcases h i (Nat.le_refl i) with ⟨hLink, hValue⟩
      rw [resolveFrom_eq, resolveFrom_eq, hLink, hValue]
      cases b.links[i]? with
      | none => rfl
      | some link =>
          dsimp only [Option.bind_some]
          split
          · rfl
          · cases link with
            | none => rfl
            | some p =>
                dsimp only [Option.bind_some]
                split
                · rename_i hLess
                  exact ih p hLess fun j hj =>
                    h j (Nat.le_of_lt
                      (Nat.lt_of_le_of_lt hj hLess))
                · rfl

/- Scopes further out have smaller indices. -/
theorem le_of_resolveFrom
    (h : env.resolveFrom name i = some j) :
    j ≤ i := by
  fun_induction env.resolveFrom name i with
  | case1 i hNone => cases h
  | case2 i s hs hFound =>
      cases h
      exact Nat.le_refl _
  | case3 i s hs hFound hParent => cases h
  | case4 i s hs hFound p hParent hLess ih =>
      exact Nat.le_trans (ih h) (Nat.le_of_lt hLess)
  | case5 i s hs hFound p hParent hLess => cases h

------------------------------------------------------------
-- Opened Scopes
------------------------------------------------------------

/- Open `k` scopes, each one inside the one before. -/
def pushes
    (env : Environment) : (k : Nat) → Environment
  | 0 => env
  | k + 1 => (env.pushes k).push

/- Every scope that is opened adds one to their number. -/
theorem length_pushes
    (env : Environment)
    (k : Nat) :
    (env.pushes k).scopes.length = env.scopes.length + k := by
  induction k with
  | zero => rfl
  | succ k ih =>
      rw [pushes, push, List.length_append, ih]
      rfl

/- The scopes that there were before are still there. -/
theorem length_le_of_pushes
    (h : SameShape (env.pushes k) inner) :
    env.scopes.length ≤ inner.scopes.length := by
  rw [← h.length_eq, length_pushes]
  exact Nat.le_add_right _ _

/- Opening scopes on both sides keeps the same shape. -/
theorem SameShape.pushes
    (h : SameShape a b)
    (k : Nat) :
    SameShape (a.pushes k) (b.pushes k) := by
  induction k with
  | zero => exact h
  | succ k ih => exact ih.push

/- The scope that was opened last is the current one. -/
theorem HasCurrent.pushes
    (h : env.HasCurrent)
    (k : Nat) :
    (env.pushes k).HasCurrent := by
  cases k with
  | zero => exact h
  | succ k => exact hasCurrent_push (env.pushes k)

/- Every scope is nested in the one that was current then. -/
theorem links_pushes
    (env : Environment)
    (h : j < k) :
    (env.pushes k).links[env.scopes.length + j]? =
      some (some (env.pushes j).current) := by
  induction k with
  | zero => cases h
  | succ k ih =>
      have hLength :
          (env.pushes k).links.length =
            env.scopes.length + k := by
        rw [links, List.length_map, length_pushes]
      have hLinks :
          (env.pushes (k + 1)).links =
            (env.pushes k).links ++
              [some (env.pushes k).current] :=
        List.map_append
      rw [hLinks]
      rcases Nat.lt_succ_iff_lt_or_eq.mp h with hLess | rfl
      · rw [List.getElem?_append_left (by omega), ih hLess]
      · rw [← hLength, List.getElem?_concat_length]

/- Opening scopes leaves some. -/
theorem scopes_pushes_ne_nil
    (hScopes : env.scopes ≠ [])
    (k : Nat) :
    (env.pushes k).scopes ≠ [] := by
  apply List.ne_nil_of_length_pos
  rw [length_pushes]
  exact Nat.add_pos_left
    (List.length_pos_iff.mpr hScopes) k

/- The scope that was opened last can be closed again. -/
theorem pop_of_pushes
    (hScopes : env.scopes ≠ [])
    (h : SameShape (env.pushes (k + 1)) inner) :
    inner.pop = .ok ((env.pushes k).closed inner) :=
  pop_eq_ok (scopes_pushes_ne_nil hScopes k) h

end Environment

end Lox
