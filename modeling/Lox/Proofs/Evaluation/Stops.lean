import Lox.Proofs.Evaluation.Operation
import Lox.Proofs.Evaluation.Scopes

/-
  Which stops a step can end with.

  Key definitions include:
    * `Stop.IsError`
    * `Stop.IsShallow`
    * `Eval.StopsWithin`

  Key theorems include:
    * `Eval.StopsWithin.bind`
    * `Eval.StopsWithin.inScope`
-/

namespace Lox

variable {α β : Type}

------------------------------------------------------------
-- Kinds of Stops
------------------------------------------------------------

namespace Stop

/- Stops for which the program is to blame. -/
def IsError
    (s : Stop) : Prop :=
  ∃ e, s = .error e

/- Stops that are not about nesting. -/
def IsShallow
    (s : Stop) : Prop :=
  ∀ line limit, s ≠ .error ⟨line, .nestingTooDeep limit⟩

/- A fault is not about nesting. -/
theorem isShallow_fault
    (f : Fault) :
    IsShallow (.fault f) := by
  intro line limit hStop
  cases hStop

/- An unbound name is not about nesting. -/
theorem isShallow_undefinedVariable
    (line : Int)
    (name : String) :
    IsShallow (.error ⟨line, .undefinedVariable name⟩) := by
  intro line limit hStop
  cases hStop

end Stop

/- What blames an expression is not about nesting. -/
theorem Expr.Blames.isShallow
    {e : Expr}
    {s : Stop}
    (h : e.Blames s) :
    s.IsShallow := by
  cases h with
  | error _ cause hCause =>
      intro line limit hStop
      cases hStop
      exact hCause limit rfl
  | unprintable hole hMissing => exact Stop.isShallow_fault _

/- What blames a complete expression is an error. -/
theorem Expr.Blames.isError
    {e : Expr}
    {s : Stop}
    (h : e.Blames s)
    (hComplete : e.missing? = none) :
    s.IsError := by
  cases h with
  | error line cause hCause => exact ⟨_, rfl⟩
  | unprintable hole hMissing =>
      rw [hComplete] at hMissing
      cases hMissing

------------------------------------------------------------
-- Lines
------------------------------------------------------------

/- A complete expression is on some line. -/
theorem Expr.exists_line_eq_ok
    {e : Expr}
    (h : e.missing? = none) :
    ∃ line, e.line = .ok line := by
  induction e with
  | literal t => exact ⟨t.line, rfl⟩
  | identifier name => exact ⟨name.line, rfl⟩
  | grouping e ih => exact ih h
  | unary op e ih => exact ⟨op.line, rfl⟩
  | binary left op right ihLeft ihRight =>
      exact ihLeft (Option.or_eq_none_iff.mp h).1
  | logical left op right ihLeft ihRight =>
      exact ihLeft (Option.or_eq_none_iff.mp h).1
  | assign target e ih => exact ⟨target.line, rfl⟩
  | hole => cases h

mutual

/- A complete statement has a line, or has no tokens. -/
theorem Stmt.exists_line_eq_ok :
    ∀ {s : Stmt}, s.missing? = none →
      ∃ line, s.line = .ok line
  | .expression e, h => by
      rw [Stmt.missing?] at h
      rcases Expr.exists_line_eq_ok h with ⟨line, hLine⟩
      exact ⟨some line, by rw [Stmt.line, hLine]; rfl⟩
  | .print e, h => by
      rw [Stmt.missing?] at h
      rcases Expr.exists_line_eq_ok h with ⟨line, hLine⟩
      exact ⟨some line, by rw [Stmt.line, hLine]; rfl⟩
  | .ifThen c s, h => by
      rw [Stmt.missing?, Option.or_eq_none_iff] at h
      rcases Expr.exists_line_eq_ok h.1 with ⟨line, hLine⟩
      exact ⟨some line, by rw [Stmt.line, hLine]; rfl⟩
  | .ifElse c s t, h => by
      rw [Stmt.missing?, Option.or_eq_none_iff] at h
      rcases Expr.exists_line_eq_ok h.1 with ⟨line, hLine⟩
      exact ⟨some line, by rw [Stmt.line, hLine]; rfl⟩
  | .block [], h => ⟨none, by rw [Stmt.line]⟩
  | .block (d :: ds), h => by
      rw [Stmt.missing?, Decl.firstMissing?,
        Option.or_eq_none_iff] at h
      rw [Stmt.line]
      exact Decl.exists_line_eq_ok h.1
  | .hole, h => by
      rw [Stmt.missing?] at h
      cases h

/- A complete declaration has a line, or has no tokens. -/
theorem Decl.exists_line_eq_ok :
    ∀ {d : Decl}, d.missing? = none →
      ∃ line, d.line = .ok line
  | .declare name value, h =>
      ⟨some name.line, by rw [Decl.line]⟩
  | .statement s, h => by
      rw [Decl.missing?] at h
      rw [Decl.line]
      exact Stmt.exists_line_eq_ok h
  | .hole, h => by
      rw [Decl.missing?] at h
      cases h

end

/- For want of room, a complete expression is too deep. -/
theorem Expr.exists_tooDeep_eq
    {e : Expr}
    (h : e.missing? = none)
    (limit : Int) :
    ∃ line,
      Stop.tooDeep limit (e.line.map some) =
        .error ⟨line, .nestingTooDeep limit⟩ := by
  rcases exists_line_eq_ok h with ⟨line, hLine⟩
  rw [hLine]
  exact ⟨line, rfl⟩

/- For want of room, a complete statement is too deep. -/
theorem Stmt.exists_tooDeep_eq
    {s : Stmt}
    (h : s.missing? = none)
    (limit : Int) :
    ∃ line,
      Stop.tooDeep limit s.line =
        .error ⟨line, .nestingTooDeep limit⟩ := by
  rcases exists_line_eq_ok h with ⟨line, hLine⟩
  rw [hLine]
  exact ⟨line.getD 0, rfl⟩

------------------------------------------------------------
-- Steps
------------------------------------------------------------

namespace Eval

variable {P : Stop → Prop}

/- Steps that only stop in certain ways. -/
def StopsWithin
    (P : Stop → Prop)
    (step : Eval α) : Prop :=
  ∀ m, m.env.scopes ≠ [] →
    ∀ s after, step m = .error s after → P s

/- Results do not stop, and errors stop as they say. -/
theorem stopsWithin_ofExcept
    {r : Except Stop α}
    (h : ∀ s, r = .error s → P s) :
    StopsWithin P (ofExcept r) := by
  intro m _ s after hRun
  cases r with
  | ok x => cases hRun
  | error t =>
      cases hRun
      exact h _ rfl

/- Returning does not stop. -/
theorem stopsWithin_pure
    (x : α) :
    StopsWithin P (pure x : Eval α) := by
  intro m _ s after hRun
  cases hRun

/- Stopping stops as it says. -/
theorem stopsWithin_throw
    {s : Stop}
    (h : P s) :
    StopsWithin P (throw s : Eval α) := by
  intro m _ t after hRun
  cases hRun
  exact h

/- Looking a name up stops if the name is not bound. -/
theorem stopsWithin_lookup
    {name : Token}
    (h :
      P (.error
        ⟨name.line, .undefinedVariable name.lexeme⟩)) :
    StopsWithin P (lookup name) := by
  intro m _ s after hRun
  unfold lookup at hRun
  split at hRun
  · cases hRun
  · cases hRun
    exact h

/- Assigning stops if the name is not bound. -/
theorem stopsWithin_assign
    {name : Token}
    (v : Value)
    (h :
      P (.error
        ⟨name.line, .undefinedVariable name.lexeme⟩)) :
    StopsWithin P (assign name v) := by
  intro m _ s after hRun
  unfold assign at hRun
  split at hRun
  · cases hRun
  · cases hRun
    exact h

/- Declaring does not stop. -/
theorem stopsWithin_define
    (name : Token)
    (v : Value) :
    StopsWithin P (define name v) := by
  intro m _ s after hRun
  cases hRun

/- Printing does not stop. -/
theorem stopsWithin_print
    (v : Value) :
    StopsWithin P (print v) := by
  intro m _ s after hRun
  cases hRun

namespace StopsWithin

/- What is known of the stops may be weakened. -/
theorem mono
    {Q : Stop → Prop}
    {step : Eval α}
    (h : StopsWithin P step)
    (hWeak : ∀ s, P s → Q s) :
    StopsWithin Q step :=
  fun m hScopes s after hRun =>
    hWeak s (h m hScopes s after hRun)

/- Steps one after the other stop as either of them does. -/
theorem bind
    {step : Eval α}
    {next : α → Eval β}
    (h : StopsWithin P step)
    (hShape : KeepsShape step)
    (hNext : ∀ x, StopsWithin P (next x)) :
    StopsWithin P (step >>= next) := by
  intro m hScopes s after hRun
  have hKept := hShape m hScopes
  rw [bind_apply] at hRun
  cases hStep : step m with
  | ok x mid =>
      rw [hStep] at hRun hKept
      exact hNext x mid (hKept.scopes_ne_nil hScopes) s
        after hRun
  | error t mid =>
      rw [hStep] at hRun
      cases hRun
      exact h m hScopes s after hStep

/- A scope of its own changes nothing about the stops. -/
theorem inScope
    {step : Eval α}
    (h : StopsWithin P step)
    (hShape : KeepsShape step) :
    StopsWithin P (inScope step) := by
  intro m hScopes s after hRun
  rcases inScope_apply hScopes hShape with ⟨env, -, hApply⟩
  rw [hApply] at hRun
  cases hStep : step { m with env := m.env.push } with
  | ok x mid =>
      rw [hStep] at hRun
      cases hRun
  | error t mid =>
      rw [hStep] at hRun
      cases hRun
      exact h _ (by simp [Environment.push]) s mid hStep

end StopsWithin

end Eval

------------------------------------------------------------
-- Parts of Trees
------------------------------------------------------------

open Eval hiding ofExcept

variable {P : Stop → Prop}

/-
  The operand of a logical operator stops it, or a value that
  is no truth value.
-/
theorem Expr.stopsWithin_evalRight_of_truth
    {whole : Expr}
    {op : Token}
    {right : Eval Value}
    (hTruth :
      ∀ v s, whole.truth op.line v = .error s → P s)
    (h : StopsWithin P right)
    (hShape : KeepsShape right)
    (x : Value) :
    StopsWithin P (whole.evalRight op right x) := by
  have hStep : ∀ v,
      StopsWithin P
        (Eval.ofExcept (whole.truth op.line v)) :=
    fun v => stopsWithin_ofExcept (hTruth v)
  refine (hStep x).bind (keepsShape_ofExcept _) fun a => ?_
  split
  · exact stopsWithin_pure _
  · split
    · exact stopsWithin_pure _
    · exact h.bind hShape fun y =>
        (hStep y).bind (keepsShape_ofExcept _) fun b =>
          stopsWithin_pure _

/- The operand of a logical operator, or blame, stops it. -/
theorem Expr.stopsWithin_evalRight
    {whole : Expr}
    (op : Token)
    {right : Eval Value}
    (hBlames : ∀ s, whole.Blames s → P s)
    (h : StopsWithin P right)
    (hShape : KeepsShape right)
    (x : Value) :
    StopsWithin P (whole.evalRight op right x) :=
  stopsWithin_evalRight_of_truth
    (fun _ s hStop => hBlames s (blames_of_truth hStop)) h
    hShape x

/-
  A value that is no truth value stops the decision of a
  condition, on the line of the condition.
-/
theorem Expr.stopsWithin_decide_of_truth
    {c : Expr}
    (hTruth :
      ∀ line, c.line = .ok line →
        ∀ v s, c.truth line v = .error s → P s)
    (hLine : ∀ f, c.line = .error f → P (.fault f))
    (v : Value) :
    StopsWithin P (c.decide v) := by
  unfold decide
  split
  · exact stopsWithin_pure _
  · split
    · rename_i f hFault
      exact stopsWithin_throw (hLine f hFault)
    · rename_i line hOk
      exact stopsWithin_ofExcept (hTruth line hOk v)

/- Blame stops the decision of a condition. -/
theorem Expr.stopsWithin_decide
    {c : Expr}
    (hBlames : ∀ s, c.Blames s → P s)
    (hLine : ∀ f, c.line = .error f → P (.fault f))
    (v : Value) :
    StopsWithin P (c.decide v) :=
  stopsWithin_decide_of_truth
    (fun _ _ _ s hStop => hBlames s (blames_of_truth hStop))
    hLine v

end Lox
