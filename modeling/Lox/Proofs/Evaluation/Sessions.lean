import Lox.Proofs.Evaluation.Faults
import Lox.Session

/-
  Sessions never meet a fault.

  Sources are read as well-formed trees, and these only stop
  with errors as long as there is a scope.  Between runs, a
  session holds the global scope and no other.

  Key definitions include:
    * `Session.Action`
    * `Session.perform`
    * `Session.performAll`
    * `Session.IsSettled`

  Key theorems include:
    * `Session.faultless_runAll`
    * `Session.faultless_run_of_scopes`
    * `Session.faultless_run`
    * `Session.faultless_performAll`
-/

namespace Lox

namespace Session

open Environment

------------------------------------------------------------
-- Definitions
------------------------------------------------------------

/- What is asked of a session. -/
inductive Action where
  | run (source : String)
  | reset

/- Do what is asked; only runs are reported on. -/
def perform
    (s : Session) : Action → Session × Option Report
  | .run source =>
      let (s', r) := s.run source
      (s', some r)
  | .reset => (fresh, none)

/- Do all that is asked, in order. -/
def performAll
    (s : Session) : List Action → Session × List Report
  | [] => (s, [])
  | a :: as =>
      let (s', r) := s.perform a
      let (s'', rs) := s'.performAll as
      (s'', r.toList ++ rs)

/- Whether the global scope is all there is. -/
def IsSettled
    (s : Session) : Prop :=
  SameShape Environment.fresh s.env

/- A settled session has a scope. -/
theorem IsSettled.scopes_ne_nil
    {s : Session}
    (h : s.IsSettled) :
    s.env.scopes ≠ [] :=
  SameShape.scopes_ne_nil h (List.cons_ne_nil _ _)

------------------------------------------------------------
-- Runs
------------------------------------------------------------

/-
  A declaration that is evaluated ends in a value or in an
  error, and leaves the scopes as they were.
-/
theorem evaluate_cases
    {d : Decl}
    {m : Machine}
    (h : d.WellFormed)
    (hScopes : m.env.scopes ≠ [])
    (limit : Int) :
    ∃ after, SameShape m.env after.env ∧
      ((∃ v, d.evaluate limit m = .ok v after) ∨
        ∃ e, d.evaluate limit m = .error (.error e) after) := by
  have hShape :=
    d.keepsShape_exec limit limit.toNat m hScopes
  have hStops :=
    Decl.stopsWithin_exec limit h limit.toNat m hScopes
  change Environment.SameShape _
    (Eval.final (d.evaluate limit m)).env at hShape
  cases hRun : d.evaluate limit m with
  | ok v after =>
      rw [hRun] at hShape
      exact ⟨after, hShape, .inl ⟨v, rfl⟩⟩
  | error s after =>
      rw [hRun] at hShape
      rcases hStops s after hRun with ⟨e, rfl⟩
      exact ⟨after, hShape, .inr ⟨e, rfl⟩⟩

/- Running well-formed declarations meets no fault. -/
theorem faultless_runAll
    {items : List (Except ParseError Decl)}
    {s : Session}
    (hItems : ∀ d, .ok d ∈ items → d.WellFormed)
    (hScopes : s.env.scopes ≠ []) :
    (s.runAll items).2.fault = none ∧
      SameShape s.env (s.runAll items).1.env := by
  induction items generalizing s with
  | nil => exact ⟨rfl, SameShape.refl _⟩
  | cons item items ih =>
      have hMore : ∀ d, .ok d ∈ items → d.WellFormed :=
        fun d hd => hItems d (List.mem_cons_of_mem _ hd)
      cases item with
      | error e => exact ih hMore hScopes
      | ok d =>
          rcases
              evaluate_cases (m := ⟨s.env, []⟩)
                (hItems d List.mem_cons_self) hScopes
                standardLimit with
            ⟨after, hShape, hEnd⟩
          have hNext := ih (s := ⟨after.env⟩) hMore
            (hShape.scopes_ne_nil hScopes)
          rcases hEnd with ⟨v, hRun⟩ | ⟨e, hRun⟩
          · rw [runAll, hRun]
            exact ⟨hNext.1, hShape.trans hNext.2⟩
          · rw [runAll, hRun]
            exact ⟨hNext.1, hShape.trans hNext.2⟩

/- Running a source meets no fault where there is a scope. -/
theorem faultless_run_of_scopes
    {s : Session}
    (hScopes : s.env.scopes ≠ [])
    (source : String) :
    (s.run source).2.fault = none ∧
      SameShape s.env (s.run source).1.env := by
  unfold run
  cases hSource : Decl.ofSource .standard source with
  | error errors => exact ⟨rfl, SameShape.refl _⟩
  | ok items =>
      have hItems : ∀ d, .ok d ∈ items → d.WellFormed := by
        intro d hd
        apply Decl.wellFormed_of_ofSource hSource
        exact List.mem_filterMap.mpr ⟨.ok d, hd, rfl⟩
      exact faultless_runAll hItems hScopes

/- Running a source in a settled session meets no fault. -/
theorem faultless_run
    {s : Session}
    (h : s.IsSettled)
    (source : String) :
    (s.run source).2.fault = none ∧
      (s.run source).1.IsSettled := by
  rcases faultless_run_of_scopes h.scopes_ne_nil source with
    ⟨hFault, hShape⟩
  exact ⟨hFault, SameShape.trans h hShape⟩

/- What a settled session is asked meets no fault. -/
theorem faultless_perform
    {s : Session}
    (h : s.IsSettled)
    (a : Action) :
    (∀ r ∈ (s.perform a).2, r.fault = none) ∧
      (s.perform a).1.IsSettled := by
  cases a with
  | run source =>
      rcases faultless_run h source with ⟨hFault, hSettled⟩
      refine ⟨?_, hSettled⟩
      rintro r ⟨⟩
      exact hFault
  | reset => exact ⟨nofun, SameShape.refl _⟩

/- Whatever a settled session is asked, it meets no fault. -/
theorem IsSettled.faultless
    {s : Session}
    (h : s.IsSettled)
    (actions : List Action) :
    (∀ r ∈ (s.performAll actions).2, r.fault = none) ∧
      (s.performAll actions).1.IsSettled := by
  induction actions generalizing s with
  | nil => exact ⟨nofun, h⟩
  | cons a as ih =>
      rcases faultless_perform h a with ⟨hFirst, hSettled⟩
      rcases ih hSettled with ⟨hMore, hLast⟩
      refine ⟨?_, hLast⟩
      intro r hr
      rcases List.mem_append.mp hr with hHead | hTail
      · exact hFirst r (Option.mem_toList.mp hHead)
      · exact hMore r hTail

/-
  Whatever a new session is asked, every run is reported
  without a fault, and the global scope is all there is.
-/
theorem faultless_performAll
    (actions : List Action) :
    (∀ r ∈ (fresh.performAll actions).2, r.fault = none) ∧
      (fresh.performAll actions).1.IsSettled :=
  IsSettled.faultless (SameShape.refl _) actions

end Session

end Lox
