import Lox.Proofs.Evaluation.Lines
import Lox.Proofs.Evaluation.Sessions
import Mathlib

/-
  Running a source in pieces.

  Two sources that are joined by a line feed run as they do
  one after the other: the declarations of the first one are
  read as they are alone, and those of the second one run as
  they do alone, but for the lines of their errors.

  Key definitions include:
    * `Report.lower`
    * `Report.append`
    * `Report.printed`
    * `Report.results`

  Key theorems include:
    * `Session.runAll_append`
    * `Session.runAll_lower`
    * `Session.run_append_newline`
    * `Session.run_in_pieces`
-/

namespace Lox

variable {s : Session}
variable {first second : String}
variable {items : List (Except ParseError Decl)}

------------------------------------------------------------
-- Reports
------------------------------------------------------------

/- An error some lines further down. -/
def Diagnostic.lower
    (n : Int) : Diagnostic → Diagnostic
  | lexical e => lexical { e with line := e.line + n }
  | structural e => structural (e.lower n)
  | runtime e => runtime (e.lower n)

/- What is seen of a run some lines further down. -/
def Event.lower
    (n : Int) : Event → Event
  | printed s => printed s
  | reported d => reported (d.lower n)

/- What is printed is on no line. -/
theorem Event.map_lower_printed
    (n : Int)
    (texts : List String) :
    (texts.map printed).map (lower n) =
      texts.map printed := by
  rw [List.map_map]
  rfl

namespace Report

/- The report of a run some lines further down. -/
def lower
    (n : Int)
    (r : Report) : Report where
  events := r.events.map (Event.lower n)
  values := r.values.map fun p => (p.1.lower n, p.2)
  fault := r.fault

/- The report of a run that another one goes on with. -/
def append
    (r r' : Report) : Report where
  events := r.events ++ r'.events
  values := r.values ++ r'.values
  fault := r'.fault

/- The texts that a run prints, in order. -/
def printed
    (r : Report) : List String :=
  r.events.filterMap
    (fun
      | .printed s => some s
      | .reported _ => none)

/- The values of the declarations that ran, in order. -/
def results
    (r : Report) : List Value :=
  r.values.map Prod.snd

/- What is seen first is seen before both runs. -/
theorem after_append
    (r r' : Report)
    (es : List Event) :
    (r.after es).append r' = (r.append r').after es := by
  unfold after append
  rw [List.append_assoc]

/- What is seen first is moved down as well. -/
theorem lower_after
    (n : Int)
    (r : Report)
    (es : List Event) :
    (r.after es).lower n =
      (r.lower n).after (es.map (Event.lower n)) := by
  unfold after lower
  rw [List.map_append]

/- Both runs print their texts. -/
theorem printed_append
    (r r' : Report) :
    (r.append r').printed = r.printed ++ r'.printed :=
  List.filterMap_append

/- Both runs have their values. -/
theorem results_append
    (r r' : Report) :
    (r.append r').results = r.results ++ r'.results :=
  List.map_append

/- Both runs report their errors. -/
theorem errors_append
    (r r' : Report) :
    (r.append r').errors = r.errors ++ r'.errors :=
  List.filterMap_append

/- Further down, the same texts are printed. -/
theorem printed_lower
    (n : Int)
    (r : Report) :
    (r.lower n).printed = r.printed := by
  have hEvents : ∀ es : List Event,
      printed ⟨es.map (Event.lower n), [], none⟩ =
        printed ⟨es, [], none⟩ := by
    intro es
    induction es with
    | nil => rfl
    | cons e es ih =>
        cases e with
        | printed s => exact congrArg (List.cons s) ih
        | reported d => exact ih
  exact hEvents r.events

/- Further down, declarations have the same values. -/
theorem results_lower
    (n : Int)
    (r : Report) :
    (r.lower n).results = r.results := by
  unfold results lower
  rw [List.map_map]
  rfl

/- Further down, the same errors are on other lines. -/
theorem errors_lower
    (n : Int)
    (r : Report) :
    (r.lower n).errors = r.errors.map (Diagnostic.lower n) := by
  have hEvents : ∀ es : List Event,
      errors ⟨es.map (Event.lower n), [], none⟩ =
        (errors ⟨es, [], none⟩).map (Diagnostic.lower n) := by
    intro es
    induction es with
    | nil => rfl
    | cons e es ih =>
        cases e with
        | printed s => exact ih
        | reported d =>
            exact congrArg (List.cons (d.lower n)) ih
  exact hEvents r.events

end Report

------------------------------------------------------------
-- Programs
------------------------------------------------------------

namespace Session

/-
  Programs are run one after the other, unless a fault ends
  the first one.
-/
theorem runAll_append
    (h : (s.runAll items).2.fault = none)
    (items' : List (Except ParseError Decl)) :
    s.runAll (items ++ items') =
      (((s.runAll items).1.runAll items').1,
        (s.runAll items).2.append
          ((s.runAll items).1.runAll items').2) := by
  induction items generalizing s with
  | nil => rfl
  | cons item items ih =>
      cases item with
      | error e =>
          rw [List.cons_append, runAll, runAll, ih h]
          rfl
      | ok d =>
          cases hRun :
              d.evaluate standardLimit ⟨s.env, []⟩ with
          | ok v m =>
              rw [runAll, hRun] at h
              rw [List.cons_append, runAll, runAll, hRun]
              dsimp only
              rw [ih h]
              simp [Report.after, Report.append]
          | error stop m =>
              cases stop with
              | error e =>
                  rw [runAll, hRun] at h
                  rw [List.cons_append, runAll, runAll, hRun]
                  dsimp only
                  rw [ih h, Report.after_append]
              | fault f =>
                  rw [runAll, hRun] at h
                  cases h

/- Further down, a program runs the same. -/
theorem runAll_lower
    {groups depth : Nat}
    (hItems :
      ∀ d, .ok d ∈ items →
        ∃ ts, Decl.Derives .optional groups depth ts d)
    (hRoom : depth ≤ standardLimit.toNat)
    (n : Int) :
    s.runAll (items.map (Decl.lowerItem n)) =
      ((s.runAll items).1, (s.runAll items).2.lower n) := by
  induction items generalizing s with
  | nil => rfl
  | cons item items ih =>
      have hMore := fun s => @ih s fun d hd =>
        hItems d (List.mem_cons_of_mem _ hd)
      cases item with
      | error e =>
          rw [List.map_cons, Decl.lowerItem, runAll, runAll,
            hMore]
          rfl
      | ok d =>
          rcases hItems d List.mem_cons_self with
            ⟨ts, hDerives⟩
          rw [List.map_cons, Decl.lowerItem, runAll, runAll,
            hDerives.evaluate_lower hRoom, Eval.lower]
          cases hRun :
              d.evaluate standardLimit ⟨s.env, []⟩ with
          | ok v m =>
              dsimp only
              rw [hMore]
              unfold Report.after Report.lower
              dsimp only
              rw [List.map_append, Event.map_lower_printed,
                List.map_cons]
          | error stop m =>
              cases stop with
              | error e =>
                  dsimp only [Stop.lower]
                  rw [hMore, Report.lower_after,
                    List.map_append, Event.map_lower_printed]
                  rfl
              | fault f =>
                  dsimp only [Stop.lower, Report.lower]
                  rw [Event.map_lower_printed]
                  rfl

------------------------------------------------------------
-- Sources
------------------------------------------------------------

/-
  Joined sources run as the first one and then the second
  one, further down.
-/
theorem run_append_newline
    (hScopes : s.env.scopes ≠ [])
    (h : Decl.Joinable first second) :
    s.run (first ++ "\n" ++ second) =
      (((s.run first).1.run second).1,
        (s.run first).2.append
          (((s.run first).1.run second).2.lower
            (Token.lineCount first))) := by
  rcases h.exists_ofSource_first with ⟨ds, hFirst⟩
  have hSecond :=
    Decl.ofSource_of_errorsOf h.errorsOf_second .standard
  have hJoined := h.ofSource_append_newline hFirst hSecond
  have hFault :
      (s.runAll (ds.map .ok)).2.fault = none := by
    have := (faultless_run_of_scopes hScopes first).1
    unfold run at this
    rwa [hFirst] at this
  have hDerives :
      ∀ d, .ok d ∈ Decl.parseAll
            ⟨.standard, 1 + Token.newlines second.toList⟩
            (Token.ofSource second) →
        ∃ ts, Decl.Derives .optional
          Limits.standard.groupRoom
          Limits.standard.depthRoom ts d := by
    intro d hd
    rcases Decl.derives_of_ofSource hSecond
        (List.mem_filterMap.mpr ⟨.ok d, hd, rfl⟩) with
      ⟨ts, -, hts⟩
    exact ⟨ts, hts⟩
  unfold run
  simp only [hFirst, hSecond, hJoined]
  rw [runAll_append hFault, runAll_lower hDerives (by decide)]

/-
  Running in pieces is running at once.  Let two sources be
  such that the second one can be joined to the first one by
  a line feed.  Run one after the other, they print the same
  texts, have the same values and leave the same variables
  as when they are run as one source, and the errors are the
  same but for the lines of those in the second source.  No
  run ends early, as every session holds the global scope.
-/
theorem run_in_pieces
    {s₁ s₂ : Session}
    {r₁ r₂ : Report}
    (hScopes : s.env.scopes ≠ [])
    (h : Decl.Joinable first second)
    (hFirst : s.run first = (s₁, r₁))
    (hSecond : s₁.run second = (s₂, r₂)) :
    ∃ r,
      s.run (first ++ "\n" ++ second) = (s₂, r) ∧
        r.printed = r₁.printed ++ r₂.printed ∧
        r.results = r₁.results ++ r₂.results ∧
        r.errors =
          r₁.errors ++
            r₂.errors.map
              (Diagnostic.lower
                (Token.newlines first.toList + 1)) ∧
        r₁.fault = none ∧ r₂.fault = none ∧
        r.fault = none := by
  have hRun := run_append_newline hScopes h
  rcases faultless_run_of_scopes hScopes first with
    ⟨hFault₁, hShape⟩
  rw [hFirst] at hRun hFault₁ hShape
  have hFault₂ :=
    (faultless_run_of_scopes (s := s₁)
      (hShape.scopes_ne_nil hScopes) second).1
  rw [hSecond] at hRun hFault₂
  refine ⟨_, hRun, ?_, ?_, ?_,
    hFault₁, hFault₂, hFault₂⟩
  · rw [Report.printed_append, Report.printed_lower]
  · rw [Report.results_append, Report.results_lower]
  · rw [Report.errors_append, Report.errors_lower]
    rfl

/- A source that prints a name that is not bound. -/
def unboundName : String :=
  "var a;\nprint b;\n\x7b print a; \x7d"

/- A source with a syntax error and an unbound target. -/
def unboundTarget : String :=
  "print );\na;\nc = a;"

/- Both sources can be joined. -/
theorem joinable_unbound :
    Decl.Joinable unboundName unboundTarget where
  errorsOf_first := by cbv
  errorsOf_second := by cbv
  last_first := by
    have hLast :
        (Token.ofSource unboundName).getLast? =
          some ⟨.rightBrace, "\x7d", .absent, 3⟩ := by
      cbv
    exact .inr ⟨_, hLast, rfl⟩
  head_second := by
    have hHead :
        (Token.ofSource unboundTarget).head? =
          some ⟨.printWord, "print", .absent, 1⟩ := by
      cbv
    rw [hHead]
    rintro t ⟨⟩
    exact ⟨by decide, fun _ => by decide⟩

/- Errors of the second source are moved down. -/
theorem run_in_pieces_unbound :
    ∃ s₁ s₂ r₁ r₂ r,
      fresh.run unboundName = (s₁, r₁) ∧
        s₁.run unboundTarget = (s₂, r₂) ∧
        fresh.run (unboundName ++ "\n" ++ unboundTarget) =
          (s₂, r) ∧
        r.printed = r₁.printed ++ r₂.printed ∧
        r.results = r₁.results ++ r₂.results ∧
        r.errors =
          r₁.errors ++ r₂.errors.map (Diagnostic.lower 3) ∧
        r.errors.map Diagnostic.line = [2, 4, 6] := by
  have hFirst :
      fresh.run unboundName =
        ((fresh.run unboundName).1,
          (fresh.run unboundName).2) :=
    (Prod.eta _).symm
  have hSecond :
      (fresh.run unboundName).1.run unboundTarget =
        (((fresh.run unboundName).1.run unboundTarget).1,
          ((fresh.run unboundName).1.run unboundTarget).2) :=
    (Prod.eta _).symm
  have hLines :
      (Token.newlines unboundName.toList : Int) + 1 = 3 := by
    cbv
  have hErrors :
      (fresh.run
          (unboundName ++ "\n" ++ unboundTarget)).2.errors.map
        Diagnostic.line = [2, 4, 6] := by
    cbv
  rcases
      run_in_pieces (List.cons_ne_nil _ _) joinable_unbound
        hFirst hSecond with
    ⟨r, hRun, hPrinted, hResults, hAll, -⟩
  rw [hLines] at hAll
  rw [hRun] at hErrors
  exact ⟨_, _, _, _, r, hFirst, hSecond, hRun, hPrinted,
    hResults, hAll, hErrors⟩

end Session

end Lox
