import Lox.Proofs.Reading.Trace
import Lox.Proofs.Scanning.Order

/-
  Attempts go forward through the lines of their tokens.

  The error of a failed attempt is on the line of a token
  that was consumed, or of the one in front of which it
  fails.  Reading resumes no earlier than there.

  Key definitions include:
    * `Setting.InOrder`

  Key theorems include:
    * `Setting.InOrder.split`
    * `Decl.inOrder_of_done`
    * `Decl.inOrder_of_failed`
-/

namespace Lox

variable {set : Setting} {depth : Nat}
variable {t : Token} {ts us rest : List Token}
variable {d : Decl} {f : Failure} {q : Position}

------------------------------------------------------------
-- Tokens in Order
------------------------------------------------------------

/- Whether the lines of tokens never fall up to the end. -/
def Setting.InOrder
    (set : Setting)
    (ts : List Token) : Prop :=
  Rises (set.lineAt ts) set.endLine (ts.map Token.line)

namespace Setting.InOrder

/- Tokens on rising lines are in order. -/
theorem of_rises
    {first : Int}
    (h : Rises first set.endLine (ts.map Token.line)) :
    first ≤ set.lineAt ts ∧ set.InOrder ts := by
  cases ts with
  | nil =>
      exact ⟨rises_nil.mp h, rises_nil.mpr (Int.le_refl _)⟩
  | cons t ts =>
      rw [List.map_cons, rises_cons] at h
      exact ⟨h.1, rises_cons.mpr ⟨Int.le_refl _, h.2⟩⟩

/-
  The last of some tokens are in order as well, and all
  others are on lines up to where they start.
-/
theorem split
    (h : set.InOrder (us ++ rest)) :
    set.InOrder rest ∧
      set.lineAt (us ++ rest) ≤ set.lineAt rest ∧
      ∀ t ∈ us,
        set.lineAt (us ++ rest) ≤ t.line ∧
          t.line ≤ set.lineAt rest := by
  induction us with
  | nil => exact ⟨h, Int.le_refl _, nofun⟩
  | cons u us ih =>
      rcases of_rises (rises_cons.mp h).2 with ⟨hNext, hMore⟩
      rcases ih hMore with ⟨hRest, hLine, hTokens⟩
      have hFirst : set.lineAt (u :: us ++ rest) = u.line :=
        rfl
      rw [hFirst]
      refine ⟨hRest, Int.le_trans hNext hLine, ?_⟩
      intro t ht
      rcases List.mem_cons.mp ht with rfl | ht
      · exact ⟨Int.le_refl _, Int.le_trans hNext hLine⟩
      · rcases hTokens t ht with ⟨hLow, hHigh⟩
        exact ⟨Int.le_trans hNext hLow, hHigh⟩

end Setting.InOrder

------------------------------------------------------------
-- Attempts
------------------------------------------------------------

/- What a failure shows is on the line of a token. -/
theorem Failure.Shows.line_cases
    (h : f.Shows set q us) :
    f.error.line = set.lineAt f.rest ∨
      ∃ t ∈ us, f.error.line = t.line := by
  cases h with
  | unexpectedToken hStep => exact .inl rfl
  | wrongToken hStep => exact .inl rfl
  | endOfInput hEnd => exact .inl rfl
  | invalidTarget hToken => exact .inr ⟨_, hToken, rfl⟩
  | tooManyGroups hToken => exact .inr ⟨_, hToken, rfl⟩
  | tooDeep => exact .inl rfl

namespace Decl

/-
  A declaration is read from tokens on lines up to where the
  others start.
-/
theorem inOrder_of_done
    (h : set.InOrder ts)
    (hParse : Decl.parse set depth ts = .done d rest) :
    set.InOrder rest ∧
      set.lineAt ts ≤ set.lineAt rest ∧
      ∃ us,
        Decl.Derives .optional set.limits.groupRoom depth us
            d ∧
          ∀ t ∈ us,
            set.lineAt ts ≤ t.line ∧
              t.line ≤ set.lineAt rest := by
  rcases derives_of_parse hParse with ⟨us, rfl, hDerives⟩
  rcases h.split with ⟨hRest, hLine, hTokens⟩
  exact ⟨hRest, hLine, us, hDerives, hTokens⟩

/- A failure is on a line up to where reading resumes. -/
theorem inOrder_of_failed
    (h : set.InOrder (t :: ts))
    (hParse :
      Decl.parse set depth (t :: ts) = .failed f) :
    set.InOrder (f.boundary (t :: ts)) ∧
      set.lineAt (t :: ts) ≤ f.error.line ∧
      f.error.line ≤ set.lineAt (f.boundary (t :: ts)) := by
  have hTraces := traces_parse set depth t ts
  rw [hParse] at hTraces
  cases hTraces with
  | failed hTokens hRun hShows =>
      rcases resume_suffix
          (f.rest.length == (t :: ts).length) f.opened f.rest
        with ⟨skipped, hSkipped⟩
      rw [hTokens] at h
      rcases h.split with ⟨hRest, hLine, hConsumed⟩
      rw [← hTokens] at hLine hConsumed
      rw [← hSkipped] at hRest
      rcases hRest.split with ⟨hBoundary, hNext, -⟩
      rw [hSkipped] at hNext
      refine ⟨hBoundary, ?_⟩
      rcases hShows.line_cases with hHere | ⟨u, hu, hBefore⟩
      · rw [hHere]
        exact ⟨hLine, hNext⟩
      · rw [hBefore]
        rcases hConsumed u hu with ⟨hLow, hHigh⟩
        exact ⟨hLow, Int.le_trans hHigh hNext⟩

end Decl

end Lox
