import Lox.Fault
import Lox.Text.Quoted
import Lox.Value

/-
  The scopes of a running program.

  Scopes live in an arena: each one has an index, and links
  to the scope it is nested in.  Scope 0 is the global one.
  A name is looked up from the current scope outwards along
  these links, which lead to ever smaller indices.

  Key definitions include:
    * `Bindings`
    * `Scope`
    * `Environment`
    * `Environment.push`
    * `Environment.pop`
    * `Environment.define`
    * `Environment.resolve`
    * `Environment.get?`
    * `Environment.assign?`
-/

namespace Lox

------------------------------------------------------------
-- Bindings
------------------------------------------------------------

/- Names and their values, in order of first binding. -/
abbrev Bindings :=
  List (String × Value)

namespace Bindings

/- The value of a name. -/
def find?
    (bs : Bindings)
    (name : String) : Option Value :=
  bs.lookup name

/- Bind a name, in its old place if it had one. -/
def insert
    (name : String)
    (v : Value) : Bindings → Bindings
  | [] => [(name, v)]
  | (n, w) :: bs =>
      if n = name then (n, v) :: bs
      else (n, w) :: insert name v bs

/- Bindings sorted by name. -/
def sorted
    (bs : Bindings) : Bindings :=
  bs.mergeSort (fun a b => !decide (b.1 < a.1))

/- A name that was just bound has its new value. -/
theorem find?_insert_self
    (bs : Bindings)
    (name : String)
    (v : Value) :
    (insert name v bs).find? name = some v := by
  induction bs with
  | nil => simp [insert, find?]
  | cons b bs ih =>
      obtain ⟨n, w⟩ := b
      unfold find? at ih ⊢
      by_cases hn : n = name
      · simp [insert, hn]
      · simp [insert, hn, List.lookup_cons,
          beq_eq_false_iff_ne.2 (Ne.symm hn), ih]

/- Binding a name leaves the other names alone. -/
theorem find?_insert_of_ne
    (bs : Bindings)
    (name other : String)
    (v : Value)
    (hOther : other ≠ name) :
    (insert name v bs).find? other = bs.find? other := by
  induction bs with
  | nil =>
      simp [insert, find?, List.lookup_cons,
        beq_eq_false_iff_ne.2 hOther]
  | cons b bs ih =>
      obtain ⟨n, w⟩ := b
      unfold find? at ih ⊢
      by_cases hn : n = name
      · simp [insert, hn, List.lookup_cons,
          beq_eq_false_iff_ne.2 hOther]
      · by_cases ho : other = n
        · simp [insert, hn, ho]
        · simp [insert, hn, List.lookup_cons,
            beq_eq_false_iff_ne.2 ho, ih]

end Bindings

------------------------------------------------------------
-- The Arena
------------------------------------------------------------

/- A scope: the scope it is nested in, and its bindings. -/
structure Scope where
  parent : Option Nat
  bindings : Bindings
deriving DecidableEq

/- An arena of scopes, one of which is the current one. -/
structure Environment where
  scopes : List Scope
  current : Nat
deriving DecidableEq

namespace Environment

/- The environment that holds an empty global scope. -/
def fresh : Environment :=
  ⟨[⟨none, []⟩], 0⟩

/- Open a scope within the current one. -/
def push
    (env : Environment) : Environment :=
  ⟨env.scopes ++ [⟨some env.current, []⟩],
    env.scopes.length⟩

/-
  Close the current scope.  Its place in the arena is given
  up if no later scope was opened.
-/
def pop
    (env : Environment) : Except Fault Environment :=
  if env.current = 0 then .error .globalScope
  else
    match env.scopes[env.current]?.bind Scope.parent with
    | none => .error .globalScope
    | some p =>
        if env.current + 1 = env.scopes.length then
          .ok ⟨env.scopes.dropLast, p⟩
        else .ok ⟨env.scopes, p⟩

/- Make another scope the current one. -/
def jump
    (env : Environment)
    (i : Nat) : Environment :=
  { env with current := i }

/- Bind a name in the scope with a given index. -/
def insertAt
    (env : Environment)
    (i : Nat)
    (name : String)
    (v : Value) : Environment :=
  { env with
    scopes := env.scopes.modify i
      (fun s =>
        { s with bindings := s.bindings.insert name v }) }

/- Bind a name in the current scope. -/
def define
    (env : Environment)
    (name : String)
    (v : Value) : Environment :=
  env.insertAt env.current name v

------------------------------------------------------------
-- Walking Outwards
------------------------------------------------------------

/-
  The index of the innermost scope that binds a name, going
  outwards from scope `i`.
-/
def resolveFrom
    (env : Environment)
    (name : String)
    (i : Nat) : Option Nat :=
  match env.scopes[i]? with
  | none => none
  | some s =>
      if (s.bindings.find? name).isSome then some i
      else
        match s.parent with
        | none => none
        | some p =>
            if p < i then env.resolveFrom name p else none

/- The index of the innermost scope that binds a name. -/
def resolve
    (env : Environment)
    (name : String) : Option Nat :=
  env.resolveFrom name env.current

/- How many scopes enclose scope `i`, itself included. -/
def depthFrom
    (env : Environment)
    (i : Nat) : Nat :=
  match env.scopes[i]? with
  | none => 0
  | some s =>
      match s.parent with
      | none => 1
      | some p => if p < i then env.depthFrom p + 1 else 1

/- How many scopes are nested at the current one. -/
def depth
    (env : Environment) : Nat :=
  env.depthFrom env.current

/- Whether a name is bound. -/
def contains
    (env : Environment)
    (name : String) : Bool :=
  (env.resolve name).isSome

/- The value of a name. -/
def get?
    (env : Environment)
    (name : String) : Option Value := do
  let i ← env.resolve name
  let s ← env.scopes[i]?
  s.bindings.find? name

/- Change the value of a name where it is bound. -/
def assign?
    (env : Environment)
    (name : String)
    (v : Value) : Option Environment :=
  (env.resolve name).map (fun i => env.insertAt i name v)

------------------------------------------------------------
-- Listings
------------------------------------------------------------

/- The bindings of every scope, sorted by name. -/
def listing
    (env : Environment) : List Bindings :=
  env.scopes.map (fun s => s.bindings.sorted)

/- The nesting depth and the names of the current scope. -/
def summary
    (env : Environment) : String :=
  let names : List String :=
    match env.scopes[env.current]? with
    | none => []
    | some s => s.bindings.sorted.map Prod.fst
  "Environment(depth=" ++ toString env.depth ++
    ", names=[" ++
    ", ".intercalate (names.map Text.quoted) ++ "])"

end Environment

end Lox
