import Lox.Proofs.Environment.Opened
import Lox.Proofs.Evaluation.Simulation

/-
  Names that a declaration does not mention.

  Let two environments have the same shape and agree, scope by
  scope, on the names that occur in a declaration.  Then it
  ends in the same way in both and prints the same texts, and
  the environments agree on these names again.  No binding of
  any other name is touched in either of them.

  Key definitions include:
    * `Environment.AgreeOn`
    * `Environment.ChangesOnly`
    * `Machine.Alike`

  Key theorems include:
    * `Environment.AgreeOn.resolve_eq`
    * `Eval.simulation_alike`
    * `Decl.evaluate_unmentioned`
-/

namespace Lox

------------------------------------------------------------
-- Agreement
------------------------------------------------------------

namespace Environment

variable {names : List String} {a b env : Environment}
variable {outer outer' start : Environment}
variable {name : String} {i k : Nat}

/- The same scopes, which agree on certain names. -/
structure AgreeOn
    (names : List String)
    (a b : Environment) : Prop where
  shape : SameShape a b
  valueIn_eq :
    ∀ n ∈ names, ∀ i, a.valueIn i n = b.valueIn i n

namespace AgreeOn

/- A name that is agreed on is found in the same scope. -/
theorem resolve_eq
    (h : AgreeOn names a b)
    (hName : name ∈ names) :
    a.resolve name = b.resolve name := by
  rw [resolve, resolve, h.shape.current]
  apply resolveFrom_congr
  intro j _
  rw [h.shape.links]
  exact ⟨rfl, h.valueIn_eq name hName j⟩

/- Binding a name in the same scope keeps the agreement. -/
theorem insertAt
    (h : AgreeOn names a b)
    (i : Nat)
    (name : String)
    (v : Value) :
    AgreeOn names (a.insertAt i name v)
      (b.insertAt i name v) where
  shape :=
    (sameShape_insertAt a i name v).symm.trans
      (h.shape.trans (sameShape_insertAt b i name v))
  valueIn_eq n hn j := by
    rw [valueIn_insertAt, valueIn_insertAt,
      h.valueIn_eq n hn j, h.shape.length_eq]

/- Opening a scope keeps the agreement. -/
theorem push
    (h : AgreeOn names a b) :
    AgreeOn names a.push b.push where
  shape := h.shape.push
  valueIn_eq n hn i := by
    rw [valueIn_push, valueIn_push, h.valueIn_eq n hn i]

/- Closing the scopes that were opened last keeps it, too. -/
theorem closed
    (h : AgreeOn names a b)
    (hOpened : SameShape outer.push a)
    (hOpened' : SameShape outer'.push b)
    (hOuter : SameShape outer outer') :
    AgreeOn names (outer.closed a) (outer'.closed b) where
  shape :=
    hOpened.closed.symm.trans
      (hOuter.trans hOpened'.closed)
  valueIn_eq n hn i := by
    rw [valueIn_closed hOpened, valueIn_closed hOpened',
      h.valueIn_eq n hn i, hOuter.length_eq]

end AgreeOn

------------------------------------------------------------
-- Changes
------------------------------------------------------------

/-
  An environment `k` scopes inside of a first one, where at
  most certain names have other bindings.
-/
structure ChangesOnly
    (names : List String)
    (start : Environment)
    (k : Nat)
    (env : Environment) : Prop where
  shape : SameShape (start.pushes k) env
  valueIn_eq :
    ∀ n ∉ names, ∀ i, env.valueIn i n = start.valueIn i n

namespace ChangesOnly

/- Nothing is changed at first. -/
theorem refl
    (names : List String)
    (start : Environment) :
    ChangesOnly names start 0 start :=
  ⟨.refl start, fun _ _ _ => rfl⟩

/- One of the names may be bound. -/
theorem insertAt
    (h : ChangesOnly names start k env)
    (hName : name ∈ names)
    (i : Nat)
    (v : Value) :
    ChangesOnly names start k (env.insertAt i name v) where
  shape := h.shape.trans (sameShape_insertAt env i name v)
  valueIn_eq n hn j := by
    have hOther : j = i → n ≠ name := by
      rintro - rfl
      exact hn hName
    rw [valueIn_insertAt_of_ne hOther, h.valueIn_eq n hn j]

/- Opening a scope changes nothing. -/
theorem push
    (h : ChangesOnly names start k env) :
    ChangesOnly names start (k + 1) env.push where
  shape := h.shape.push
  valueIn_eq n hn i := by
    rw [valueIn_push, h.valueIn_eq n hn i]

/- Closing a scope changes nothing outside of it. -/
theorem closed
    (h : ChangesOnly names start (k + 1) env) :
    ChangesOnly names start k
      ((start.pushes k).closed env) where
  shape := h.shape.closed
  valueIn_eq n hn i := by
    rw [valueIn_closed h.shape, h.valueIn_eq n hn i]
    split
    · rfl
    · rename_i hNew
      rw [length_pushes] at hNew
      exact (valueIn_eq_none (by omega)).symm

end ChangesOnly

end Environment

------------------------------------------------------------
-- Runs
------------------------------------------------------------

open Environment

variable {names : List String} {start start' m m' : Machine}
variable {k : Nat}

/-
  Machines `k` scopes inside of two first ones.  They agree
  on certain names, have printed the same texts since, and
  have the other bindings that they had at first.
-/
structure Machine.Alike
    (names : List String)
    (start start' : Machine)
    (k : Nat)
    (m m' : Machine) : Prop where
  agree : AgreeOn names m.env m'.env
  changes : ChangesOnly names start.env k m.env
  changes' : ChangesOnly names start'.env k m'.env
  printed :
    ∃ texts : List String,
      m.printed = start.printed ++ texts ∧
        m'.printed = start'.printed ++ texts

/- Machines that agree are alike. -/
theorem Environment.AgreeOn.alike
    (h : AgreeOn names m.env m'.env) :
    Machine.Alike names m m' 0 m m' where
  agree := h
  changes := .refl names m.env
  changes' := .refl names m'.env
  printed :=
    ⟨[], (List.append_nil _).symm, (List.append_nil _).symm⟩

namespace Machine.Alike

/- Binding one of the names on both sides keeps this. -/
theorem insertAt
    {name : String}
    (h : Alike names start start' k m m')
    (hName : name ∈ names)
    (i : Nat)
    (v : Value) :
    Alike names start start' k
      { m with env := m.env.insertAt i name v }
      { m' with env := m'.env.insertAt i name v } where
  agree := h.agree.insertAt i name v
  changes := h.changes.insertAt hName i v
  changes' := h.changes'.insertAt hName i v
  printed := h.printed

/- So does printing a text on both sides. -/
theorem print
    (h : Alike names start start' k m m')
    (text : String) :
    Alike names start start' k
      { m with printed := m.printed ++ [text] }
      { m' with printed := m'.printed ++ [text] } where
  agree := h.agree
  changes := h.changes
  changes' := h.changes'
  printed := by
    rcases h.printed with ⟨texts, hTexts, hTexts'⟩
    refine ⟨texts ++ [text], ?_, ?_⟩
    · rw [hTexts, List.append_assoc]
    · rw [hTexts', List.append_assoc]

/- So does opening a scope on both sides. -/
theorem push
    (h : Alike names start start' k m m') :
    Alike names start start' (k + 1)
      { m with env := m.env.push }
      { m' with env := m'.env.push } where
  agree := h.agree.push
  changes := h.changes.push
  changes' := h.changes'.push
  printed := h.printed

/- So does closing it. -/
theorem closed
    (h : Alike names start start' (k + 1) m m')
    (hStart : SameShape start.env start'.env) :
    Alike names start start' k
      { m with env := (start.env.pushes k).closed m.env }
      { m' with
        env := (start'.env.pushes k).closed m'.env } where
  agree := h.agree.closed h.changes.shape h.changes'.shape
    (hStart.pushes k)
  changes := h.changes.closed
  changes' := h.changes'.closed
  printed := h.printed

end Machine.Alike

/- What machines that are alike do with these names. -/
theorem Eval.simulation_alike
    (hScopes : start.env.scopes ≠ [])
    (hStart : SameShape start.env start'.env) :
    Simulation (· ∈ names) True
      (Machine.Alike names start start') where
  resolves := by
    intro k m m' name hName h
    rw [h.agree.resolve_eq hName]
    cases m'.env.resolve name with
    | none => exact .none
    | some i =>
        exact .some ⟨h.agree.valueIn_eq name hName i,
          h.insertAt hName i⟩
  defines := by
    intro k m m' name _ hName h v
    unfold Environment.define
    rw [h.agree.shape.current]
    exact h.insertAt hName _ v
  prints := fun h text => h.print text
  opens := fun h => h.push
  closes := by
    intro k m m' h
    exact .inl ⟨_, _,
      pop_of_pushes hScopes h.changes.shape,
      pop_of_pushes (hStart.scopes_ne_nil hScopes)
        h.changes'.shape,
      h.closed hStart⟩

/-
  Names that do not occur in a declaration have no effect on
  it, and it has none on them.
-/
theorem Decl.evaluate_unmentioned
    {d : Decl}
    (limit : Int)
    (hScopes : m.env.scopes ≠ [])
    (hAgree : AgreeOn d.names m.env m'.env) :
    Eval.SameEnding
      (fun after after' =>
        AgreeOn d.names after.env after'.env ∧
          (∃ texts : List String,
            after.printed = m.printed ++ texts ∧
              after'.printed = m'.printed ++ texts) ∧
          (∀ n ∉ d.names, ∀ i,
            after.env.valueIn i n = m.env.valueIn i n) ∧
          ∀ n ∉ d.names, ∀ i,
            after'.env.valueIn i n = m'.env.valueIn i n)
      (d.evaluate limit m) (d.evaluate limit m') := by
  have hSimulation :=
    @Eval.simulation_alike d.names m m' hScopes hAgree.shape
  have hEnding :=
    d.simulates_exec hSimulation limit limit.toNat 0
      (.inr trivial) (fun _ hn => hn) m m' hAgree.alike
  exact hEnding.mono fun h =>
    ⟨h.agree, h.printed, h.changes.valueIn_eq,
      h.changes'.valueIn_eq⟩

/- A block that keeps a value of `y` in an `x` of its own. -/
def Decl.keepsValue : Decl :=
  .statement (.block
    [.declare ⟨.identifier, "x", .absent, 1⟩
        (some (.identifier ⟨.identifier, "y", .absent, 1⟩)),
      .statement (.expression (.assign
        ⟨.identifier, "y", .absent, 1⟩
        (.literal ⟨.falseWord, "false", .bool false, 1⟩))),
      .statement (.print
        (.identifier ⟨.identifier, "x", .absent, 1⟩))])

/- A global `y` that is true, after other names. -/
def Machine.withOthers
    (others : Bindings) : Machine :=
  ⟨⟨[⟨none, others ++ [("y", .bool true)]⟩], 0⟩, []⟩

/-
  The block prints the old value of `y` and changes it, with
  any value of `z`, and leaves that value alone.
-/
theorem Decl.evaluate_unmentioned_keepsValue :
    let m := Machine.withOthers []
    let m' := Machine.withOthers [("z", .bool true)]
    let after := Eval.final (keepsValue.evaluate 200 m)
    let after' := Eval.final (keepsValue.evaluate 200 m')
    m.env.scopes ≠ [] ∧
      AgreeOn keepsValue.names m.env m'.env ∧
      AgreeOn keepsValue.names after.env after'.env ∧
      after.env.valueIn 0 "y" = some (.bool false) ∧
      after.printed = ["true"] ∧
      after.env.valueIn 0 "z" = none ∧
      after'.env.valueIn 0 "z" = some (.bool true) := by
  intro m m'
  have hScopes : m.env.scopes ≠ [] := List.cons_ne_nil _ _
  have hAgree : AgreeOn keepsValue.names m.env m'.env := by
    refine ⟨⟨rfl, rfl⟩, fun n hn i => ?_⟩
    cases i with
    | zero =>
        revert n
        decide +kernel
    | succ i => rfl
  have hValue :
      (Eval.final (keepsValue.evaluate 200 m)).env.valueIn 0
          "y" =
        some (.bool false) := by
    decide +kernel
  have hPrinted :
      (Eval.final (keepsValue.evaluate 200 m)).printed =
        ["true"] := by
    decide +kernel
  have hOther : "z" ∉ keepsValue.names := by decide +kernel
  have hFinal :=
    (evaluate_unmentioned 200 hScopes hAgree).final
  exact ⟨hScopes, hAgree, hFinal.1, hValue, hPrinted,
    hFinal.2.2.1 "z" hOther 0, hFinal.2.2.2 "z" hOther 0⟩

end Lox
