import Lox.Proofs.Environment.Opened

/-
  An empty scope between the scopes.

  A scope is put in at the end of the scopes of a first
  environment, below all scopes that are opened inside of its
  current one.  As it binds nothing, names are found where
  they were found before, one place further on if that is
  above the new scope.

  Key definitions include:
    * `Environment.lifted`
    * `Environment.raised`
    * `Environment.pad`

  Key theorems include:
    * `Environment.resolve_pad`
    * `Environment.insertAt_pad`
    * `Environment.closed_pad`
-/

namespace Lox

namespace Environment

variable {env inner outer : Environment} {n i j k p : Nat}
variable {name : String} {v : Value}

------------------------------------------------------------
-- Padded Environments
------------------------------------------------------------

/- The index of a scope once there is a new scope at `n`. -/
def lifted
    (n i : Nat) : Nat :=
  if i < n then i else i + 1

/- Scopes below the new one keep their index. -/
theorem lifted_of_lt
    (h : i < n) :
    lifted n i = i :=
  if_pos h

/- Scopes above it have the next one. -/
theorem lifted_of_le
    (h : n ≤ i) :
    lifted n i = i + 1 :=
  if_neg (Nat.not_lt_of_le h)

/- No scope has the index of the new one. -/
theorem lifted_ne
    (n i : Nat) :
    lifted n i ≠ n := by
  rcases Nat.lt_or_ge i n with hBelow | hAbove
  · rw [lifted_of_lt hBelow]
    exact Nat.ne_of_lt hBelow
  · rw [lifted_of_le hAbove]
    omega

/- Different scopes have different indices. -/
theorem lifted_inj :
    lifted n i = lifted n j ↔ i = j := by
  refine ⟨fun h => ?_, congrArg (lifted n)⟩
  unfold lifted at h
  split at h <;> split at h <;> omega

/-
  The index of a scope to be nested in: what was nested in
  the scopes below the new one is nested in the new one.
-/
def raised
    (n i : Nat) : Nat :=
  if i < n then n else i + 1

/- What was nested below the new scope is nested in it. -/
theorem raised_of_lt
    (h : i < n) :
    raised n i = n :=
  if_pos h

/- What was nested above it stays where it was. -/
theorem raised_of_le
    (h : n ≤ i) :
    raised n i = i + 1 :=
  if_neg (Nat.not_lt_of_le h)

/- Scopes are still nested in scopes before them. -/
theorem raised_lt
    (hn : n ≤ j)
    (h : i < j) :
    raised n i < j + 1 := by
  unfold raised
  split <;> omega

/- A scope above the new one. -/
def raiseScope
    (n : Nat)
    (s : Scope) : Scope :=
  { s with parent := s.parent.map (raised n) }

/- Put an empty scope in at `n`, nested in the scope `p`. -/
def pad
    (env : Environment)
    (n p : Nat) : Environment :=
  ⟨env.scopes.take n ++
      ⟨some p, []⟩ :: (env.scopes.drop n).map (raiseScope n),
    raised n env.current⟩

/- Scopes below the new one stay as they are. -/
theorem getElem?_pad_of_lt
    (hn : n ≤ env.scopes.length)
    (h : i < n) :
    (env.pad n p).scopes[i]? = env.scopes[i]? := by
  unfold pad
  rw [List.getElem?_append_left (by simp; omega),
    List.getElem?_take_of_lt h]

/- The new scope is where it was put. -/
theorem getElem?_pad_self
    (hn : n ≤ env.scopes.length) :
    (env.pad n p).scopes[n]? = some ⟨some p, []⟩ := by
  have hTake : (env.scopes.take n).length = n :=
    List.length_take_of_le hn
  unfold pad
  rw [List.getElem?_append_right (Nat.le_of_eq hTake), hTake,
    Nat.sub_self]
  rfl

/- Scopes above it are one place further on. -/
theorem getElem?_pad_succ
    (hn : n ≤ env.scopes.length)
    (h : n ≤ i) :
    (env.pad n p).scopes[i + 1]? =
      env.scopes[i]?.map (raiseScope n) := by
  have hTake : (env.scopes.take n).length = n :=
    List.length_take_of_le hn
  unfold pad
  rw [List.getElem?_append_right (by omega), hTake,
    Nat.sub_add_comm h, List.getElem?_cons_succ,
    List.getElem?_map, List.getElem?_drop,
    Nat.add_sub_cancel' h]

/- Links below the new scope stay as they are. -/
theorem links_pad_of_lt
    (hn : n ≤ env.scopes.length)
    (h : i < n) :
    (env.pad n p).links[i]? = env.links[i]? := by
  rw [links, links, List.getElem?_map, List.getElem?_map,
    getElem?_pad_of_lt hn h]

/- The new scope is nested where it was said to be. -/
theorem links_pad_self
    (hn : n ≤ env.scopes.length) :
    (env.pad n p).links[n]? = some (some p) := by
  rw [links, List.getElem?_map, getElem?_pad_self hn]
  rfl

/- Links above it are one place further on. -/
theorem links_pad_succ
    (hn : n ≤ env.scopes.length)
    (h : n ≤ i) :
    (env.pad n p).links[i + 1]? =
      env.links[i]?.map (Option.map (raised n)) := by
  rw [links, links, List.getElem?_map, List.getElem?_map,
    getElem?_pad_succ hn h, Option.map_map, Option.map_map]
  rfl

------------------------------------------------------------
-- Steps
------------------------------------------------------------

/- The shape of padded scopes is that of the scopes, padded. -/
theorem SameShape.pad
    {a b : Environment}
    (h : SameShape a b)
    (n p : Nat) :
    SameShape (a.pad n p) (b.pad n p) := by
  have hLinks : ∀ env : Environment,
      (env.pad n p).links =
        env.links.take n ++
          some p :: (env.links.drop n).map
            (Option.map (raised n)) := by
    intro env
    unfold Environment.links Environment.pad
    simp only [List.map_append, List.map_cons, List.map_take,
      List.map_drop, List.map_map]
    rfl
  refine ⟨?_, ?_⟩
  · rw [hLinks, hLinks, h.links]
  · exact congrArg (raised n) h.current

/- Binding a name, in padded scopes. -/
theorem insertAt_pad
    (hn : n ≤ env.scopes.length) :
    (env.insertAt i name v).pad n p =
      (env.pad n p).insertAt (lifted n i) name v := by
  have hLength :
      n ≤ (env.insertAt i name v).scopes.length := by
    rw [← (sameShape_insertAt env i name v).length_eq]
    exact hn
  have hScopes :
      ((env.insertAt i name v).pad n p).scopes =
        ((env.pad n p).insertAt (lifted n i) name
          v).scopes := by
    apply List.ext_getElem?
    intro j
    rcases Nat.lt_trichotomy j n with hBelow | rfl | hAbove
    · have hSame : lifted n i = j ↔ i = j := by
        rw [← @lifted_inj n i j, lifted_of_lt hBelow]
      rw [getElem?_pad_of_lt hLength hBelow]
      unfold insertAt
      rw [List.getElem?_modify, List.getElem?_modify,
        getElem?_pad_of_lt hn hBelow]
      simp only [hSame]
    · rw [getElem?_pad_self hLength]
      unfold insertAt
      rw [List.getElem?_modify, getElem?_pad_self hn]
      simp only [if_neg (lifted_ne j i)]
      rfl
    · rcases Nat.exists_eq_add_one_of_ne_zero
          (Nat.ne_zero_of_lt hAbove) with ⟨j, rfl⟩
      have hAbove := Nat.le_of_lt_succ hAbove
      have hSame : lifted n i = j + 1 ↔ i = j := by
        rw [← @lifted_inj n i j, lifted_of_le hAbove]
      rw [getElem?_pad_succ hLength hAbove]
      unfold insertAt
      rw [List.getElem?_modify, List.getElem?_modify,
        getElem?_pad_succ hn hAbove]
      simp only [hSame]
      cases env.scopes[j]? with
      | none => rfl
      | some s =>
          dsimp only [Option.map_eq_map, Option.map_some]
          split <;> rfl
  exact congrArg
    (fun scopes => Environment.mk scopes
      (raised n env.current))
    hScopes

/- Declaring a name above the new scope, in padded scopes. -/
theorem define_pad
    (hn : n ≤ env.scopes.length)
    (h : n ≤ env.current) :
    (env.define name v).pad n p =
      (env.pad n p).define name v := by
  have hCurrent :
      lifted n env.current = (env.pad n p).current := by
    rw [lifted_of_le h, pad, raised_of_le h]
  unfold define
  rw [insertAt_pad hn, hCurrent]

/- Opening a scope, in padded scopes. -/
theorem push_pad
    (hn : n ≤ env.scopes.length) :
    env.push.pad n p = (env.pad n p).push := by
  have hLength :
      raised n env.scopes.length =
        (env.pad n p).scopes.length := by
    unfold pad
    rw [raised_of_le hn, List.length_append,
      List.length_cons, List.length_map, ← Nat.add_assoc,
      ← List.length_append, List.take_append_drop]
  unfold push
  rw [← hLength]
  unfold pad
  dsimp only
  rw [List.take_append_of_le_length hn,
    List.drop_append_of_le_length hn, List.map_append,
    List.append_assoc]
  rfl

/- Closing a scope, in padded scopes. -/
theorem closed_pad
    (hn : n ≤ outer.scopes.length)
    (h : SameShape outer.push inner) :
    (outer.closed inner).pad n p =
      (outer.pad n p).closed (inner.pad n p) := by
  have hLength := length_of_opened h
  rcases List.eq_nil_or_concat inner.scopes with
    hNil | ⟨scopes, last, hScopes⟩
  · rw [hNil] at hLength
    cases hLength
  · rw [hScopes, List.concat_eq_append, List.length_append,
      List.length_singleton] at hLength
    have hn : n ≤ scopes.length := by omega
    unfold closed pad
    dsimp only
    rw [hScopes, List.concat_eq_append,
      List.take_append_of_le_length hn,
      List.drop_append_of_le_length hn, List.dropLast_concat,
      List.map_append, ← List.cons_append,
      ← List.append_assoc, List.map_singleton,
      List.dropLast_concat]

/- At the end of all scopes, a new one is just opened. -/
theorem pad_eq_push
    (h : env.HasCurrent) :
    env.pad env.scopes.length env.current = env.push := by
  unfold pad push
  rw [raised_of_lt h, List.take_length, List.drop_length]
  rfl

/- Once all other scopes are closed, it can be closed. -/
theorem pop_pad
    {start : Environment}
    (hStart : start.HasCurrent)
    (h : SameShape start env) :
    (env.pad start.scopes.length start.current).pop =
      .ok env := by
  have hCurrent := h.hasCurrent hStart
  rw [h.length_eq, h.current, pad_eq_push hCurrent,
    pop_eq_ok hCurrent.scopes_ne_nil (SameShape.refl _),
    closed_push]

------------------------------------------------------------
-- Lookup
------------------------------------------------------------

/- A scope binds the same names, wherever it is found. -/
theorem valueIn_pad
    (hn : n ≤ env.scopes.length)
    (i : Nat)
    (name : String) :
    (env.pad n p).valueIn (lifted n i) name =
      env.valueIn i name := by
  unfold valueIn lifted
  split
  · rename_i hBelow
    rw [getElem?_pad_of_lt hn hBelow]
  · rename_i hAbove
    rw [getElem?_pad_succ hn (Nat.le_of_not_lt hAbove),
      Option.bind_map]
    rfl

/- The new scope binds nothing. -/
theorem valueIn_pad_self
    (hn : n ≤ env.scopes.length)
    (name : String) :
    (env.pad n p).valueIn n name = none := by
  unfold valueIn
  rw [getElem?_pad_self hn]
  rfl

/- Below the new scope, names are found where they were. -/
theorem resolveFrom_pad_of_lt
    (hn : n ≤ env.scopes.length)
    (h : i < n) :
    (env.pad n p).resolveFrom name i =
      (env.resolveFrom name i).map (lifted n) := by
  have hSame :
      (env.pad n p).resolveFrom name i =
        env.resolveFrom name i := by
    apply resolveFrom_congr
    intro j hj
    have hBelow := Nat.lt_of_le_of_lt hj h
    have hValue := valueIn_pad (p := p) hn j name
    rw [lifted_of_lt hBelow] at hValue
    exact ⟨links_pad_of_lt hn hBelow, hValue⟩
  rw [hSame]
  cases hFound : env.resolveFrom name i with
  | none => rfl
  | some j =>
      have hBelow :=
        Nat.lt_of_le_of_lt (le_of_resolveFrom hFound) h
      rw [Option.map_some, lifted_of_lt hBelow]

/- The new scope is passed by. -/
theorem resolveFrom_pad_self
    (hn : n ≤ env.scopes.length)
    (h : p < n) :
    (env.pad n p).resolveFrom name n =
      (env.pad n p).resolveFrom name p := by
  rw [resolveFrom_eq, links_pad_self hn, valueIn_pad_self hn]
  exact if_pos h

variable {start : Environment}

/-
  From every scope that is opened, names are found where they
  were found without the new scope.
-/
theorem resolveFrom_pad
    (hStart : start.HasCurrent)
    (hShape : SameShape (start.pushes k) env)
    (h : j ≤ k)
    (name : String) :
    (env.pad start.scopes.length start.current).resolveFrom
        name (raised start.scopes.length
          (start.pushes j).current) =
      (env.resolveFrom name (start.pushes j).current).map
        (lifted start.scopes.length) := by
  have hn := length_le_of_pushes hShape
  induction j with
  | zero =>
      change (env.pad _ _).resolveFrom name
          (raised _ start.current) =
        (env.resolveFrom name start.current).map _
      rw [raised_of_lt hStart,
        resolveFrom_pad_self hn hStart,
        resolveFrom_pad_of_lt hn hStart]
  | succ j ih =>
      have hCurrent :
          (start.pushes (j + 1)).current =
            start.scopes.length + j :=
        length_pushes start j
      have hAbove :
          start.scopes.length ≤ start.scopes.length + j :=
        Nat.le_add_right _ _
      have hOuter :
          (start.pushes j).current <
            start.scopes.length + j := by
        rw [← length_pushes]
        exact hStart.pushes j
      have hLink := links_pushes start h
      rw [hShape.links] at hLink
      have hValue := valueIn_pad (p := start.current) hn
        (start.scopes.length + j) name
      rw [lifted_of_le hAbove] at hValue
      rw [hCurrent, raised_of_le hAbove, resolveFrom_eq,
        resolveFrom_eq _ _ (start.scopes.length + j),
        links_pad_succ hn hAbove, hLink, hValue]
      dsimp only [Option.map_some, Option.bind_some]
      rw [if_pos hOuter, if_pos (raised_lt hAbove hOuter)]
      split
      · rw [Option.map_some, lifted_of_le hAbove]
      · exact ih (Nat.le_of_succ_le h)

/- A name is found where it was, with the new scope put in. -/
theorem resolve_pad
    (hStart : start.HasCurrent)
    (hShape : SameShape (start.pushes k) env)
    (name : String) :
    (env.pad start.scopes.length start.current).resolve name =
      (env.resolve name).map (lifted start.scopes.length) := by
  have hFrom :=
    resolveFrom_pad hStart hShape (Nat.le_refl k) name
  rw [hShape.current] at hFrom
  exact hFrom

end Environment

end Lox
