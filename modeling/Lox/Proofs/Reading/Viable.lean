import Lox.Proofs.Reading.Termination
import Lox.Proofs.Reading.Trace

/-
  Errors point at the first token that cannot be.

  What an attempt has consumed where it fails can always be
  completed to a program, if anything may be assigned to.
  With the token that the error shows, it cannot; and where
  the error is that the input has ended, what was consumed is
  no program yet.

  Key definitions include:
    * `Token.Viable`
    * `ParseError.PointsAt`

  Key theorems include:
    * `Token.viable_iff_run`
    * `Failure.Shows.pointsAt`
    * `Decl.pointsAt_of_attempted`
-/

namespace Lox

variable {set : Setting} {limits : Limits}
variable {ts us : List Token} {f : Failure} {q : Position}
variable {t : Token}

------------------------------------------------------------
-- Definitions
------------------------------------------------------------

namespace Token

/-
  Whether tokens are declarations, if the targets of
  assignments are not checked.
-/
def IsRelaxed
    (ts : List Token) : Prop :=
  Decl.RelaxedAll (ts.map kind)

/- Whether tokens are the start of such declarations. -/
def Viable
    (ts : List Token) : Prop :=
  ∃ ks, Decl.RelaxedAll (ts.map kind ++ ks)

end Token

/-
  Whether an error that tells of a token, or of the end of
  the input, is the right one after some tokens and in front
  of another one.  The tokens are the start of a program.  If
  the error tells of a token, it is the one in front of it,
  with which no program can go on.  If it tells of the end,
  this is the end, and the tokens are no program.
-/
def ParseError.PointsAt
    (e : ParseError)
    (consumed : List Token)
    (t : Token) : Prop :=
  match e.cause with
  | .unexpectedToken found _ =>
      Token.Viable consumed ∧
        ¬ Token.Viable (consumed ++ [t]) ∧
        e.line = t.line ∧ found = t.lexeme
  | .wrongToken found _ =>
      Token.Viable consumed ∧
        ¬ Token.Viable (consumed ++ [t]) ∧
        e.line = t.line ∧ found = t.lexeme
  | .endOfInput =>
      Token.Viable consumed ∧
        ¬ Token.IsRelaxed consumed ∧
        e.line = t.line ∧ t.kind = .endOfInput
  | .invalidTarget _ => True
  | .nestingTooDeep _ => True

------------------------------------------------------------
-- Positions
------------------------------------------------------------

namespace Token

/- Tokens start a program if they lead somewhere. -/
theorem viable_iff_run :
    Viable ts ↔
      ∃ q, Position.start.run (ts.map kind) = some q :=
  Decl.exists_relaxedAll_append

/- Tokens are a program if they lead to where one may end. -/
theorem isRelaxed_iff_run :
    IsRelaxed ts ↔
      ∃ q, Position.start.run (ts.map kind) = some q ∧
        q.Completes [] := by
  unfold IsRelaxed
  rw [← Position.completes_start,
    ← List.append_nil (ts.map kind),
    Position.completes_append, List.append_nil]
  rfl

/- With a token that leads no further, nothing goes on. -/
theorem not_viable_of_step_eq_none
    (hRun : Position.start.run (us.map kind) = some q)
    (hStep : q.step t.kind = none) :
    ¬ Viable (us ++ [t]) := by
  rw [viable_iff_run, List.map_append, Position.run_append,
    hRun]
  rintro ⟨r, hr⟩
  simp [hStep] at hr

end Token

------------------------------------------------------------
-- Failures
------------------------------------------------------------

/- Tokens that end have a first token that ends them. -/
theorem Decl.exists_ending_eq_cons
    (h : IsLast .endOfInput ts) :
    ∃ eof after, ending ts = eof :: after := by
  rcases h with ⟨eof, hLast, hKind⟩
  cases hEnding : ending ts with
  | cons e after => exact ⟨e, after, rfl⟩
  | nil =>
      have hBody := body_append_ending ts
      rw [hEnding, List.append_nil] at hBody
      have hNot := ne_endOfInput_of_suffix
        (List.suffix_refl (body ts)) eof
        (by rw [hBody]; exact List.mem_of_getLast? hLast)
      simp [hKind] at hNot

/- What a failure shows is what its error points at. -/
theorem Failure.Shows.pointsAt
    (h : f.Shows ⟨limits, Decl.endLine ts⟩ q us)
    (hRun :
      Position.start.run (us.map Token.kind) = some q)
    (hEnded : IsLast .endOfInput ts) :
    ∃ t after,
      f.rest ++ Decl.ending ts = t :: after ∧
        f.error.PointsAt us t := by
  have hViable := Token.viable_iff_run.mpr ⟨q, hRun⟩
  rcases Decl.exists_ending_eq_cons hEnded with
    ⟨eof, after, hEnding⟩
  have hSome :
      ∀ rest : List Token,
        ∃ t after', rest ++ Decl.ending ts = t :: after' := by
    intro rest
    rw [hEnding]
    cases rest with
    | nil => exact ⟨eof, after, rfl⟩
    | cons t rest => exact ⟨t, _, rfl⟩
  cases h with
  | unexpectedToken hStep =>
      exact ⟨_, _, rfl, hViable,
        Token.not_viable_of_step_eq_none hRun hStep, rfl, rfl⟩
  | wrongToken hStep =>
      exact ⟨_, _, rfl, hViable,
        Token.not_viable_of_step_eq_none hRun hStep, rfl, rfl⟩
  | endOfInput hEnd =>
      refine ⟨eof, after, hEnding, hViable, ?_,
        Decl.endLine_of_ending_eq_cons hEnding,
        Decl.kind_of_ending_eq_cons hEnding⟩
      rw [Token.isRelaxed_iff_run]
      rintro ⟨r, hr, hCompletes⟩
      rw [hRun] at hr
      cases hr
      exact hEnd hCompletes
  | @invalidTarget t rest opened target hToken =>
      rcases hSome rest with ⟨u, after, hRest⟩
      exact ⟨u, after, hRest, trivial⟩
  | @tooManyGroups t rest opened limit hToken =>
      rcases hSome rest with ⟨u, after, hRest⟩
      exact ⟨u, after, hRest, trivial⟩
  | @tooDeep rest opened limit =>
      rcases hSome rest with ⟨u, after, hRest⟩
      exact ⟨u, after, hRest, trivial⟩

/-
  Wherever an attempt of a program fails, its error points at
  the token in front of which it fails.
-/
theorem Decl.pointsAt_of_attempted
    {items : List (Except ParseError Decl)}
    (hEnded : IsLast .endOfInput ts)
    (h : Attempted ⟨limits, endLine ts⟩ (body ts) items us)
    (hStart : us ≠ [])
    (hParse :
      Decl.parse ⟨limits, endLine ts⟩ limits.depthRoom us =
        .failed f) :
    ∃ before consumed t after,
      ts = before ++ consumed ++ t :: after ∧
        us ++ ending ts = consumed ++ t :: after ∧
        f.rest ++ ending ts = t :: after ∧
        f.error.PointsAt consumed t := by
  rcases h.suffix with ⟨before, hBefore⟩
  cases us with
  | nil => exact absurd rfl hStart
  | cons u us =>
      have hTraces := traces_parse ⟨limits, endLine ts⟩
        limits.depthRoom u us
      rw [hParse] at hTraces
      cases hTraces with
      | @failed _ consumed q hTokens hRun hShows =>
          rcases hShows.pointsAt hRun hEnded with
            ⟨t, after, hRest, hPoints⟩
          have hAttempt :
              u :: us ++ ending ts =
                consumed ++ t :: after := by
            rw [hTokens, List.append_assoc, hRest]
          refine ⟨before, consumed, t, after, ?_, hAttempt,
            hRest, hPoints⟩
          rw [List.append_assoc, ← hAttempt,
            ← List.append_assoc, hBefore, body_append_ending]

/- A block that breaks off does so at the parenthesis. -/
theorem Decl.pointsAt_of_attempted_brokenBlock :
    (IsLast .endOfInput brokenBlock ∧
      Decl.parse ⟨.standard, endLine brokenBlock⟩
          Limits.standard.depthRoom (body brokenBlock) =
        .failed brokenFailure) ∧
    ∃ before consumed t after,
      brokenBlock = before ++ consumed ++ t :: after ∧
        body brokenBlock ++ ending brokenBlock =
          consumed ++ t :: after ∧
        brokenFailure.rest ++ ending brokenBlock =
          t :: after ∧
        brokenFailure.error.PointsAt consumed t := by
  have hEnded : IsLast .endOfInput brokenBlock :=
    ⟨_, rfl, rfl⟩
  have hParse :
      Decl.parse ⟨.standard, endLine brokenBlock⟩
          Limits.standard.depthRoom (body brokenBlock) =
        .failed brokenFailure := by
    cbv
  exact ⟨⟨hEnded, hParse⟩,
    pointsAt_of_attempted hEnded .start (List.cons_ne_nil _ _)
      hParse⟩

end Lox
