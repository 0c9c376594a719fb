import Lox.Proofs.Evaluation.Blame
import Lox.Proofs.Evaluation.Sessions
import Lox.Proofs.Reading.Order
import Lox.Proofs.Reading.Program
import Lox.Proofs.Scanning.Joining

/-
  Errors are reported in the order of the source.

  A declaration is read, and run, before the next one is.
  Whatever it is reported for is on a line from where it
  starts up to where the next one does, so that the lines of
  a run rise as those of the tokens do.

  Key definitions include:
    * `Session.Raises`

  Key theorems include:
    * `Session.rises_runAll`
    * `Session.exists_raises_of_mem_errors`
    * `Session.errors_in_source_order`
-/

namespace Lox

namespace Session

variable {set : Setting} {groups depth : Nat}
variable {items : List (Except ParseError Decl)}
variable {us : List Token} {d : Decl} {e : RuntimeError}
variable {s : Session} {m : Machine} {v : Value}

------------------------------------------------------------
-- One Declaration
------------------------------------------------------------

/-
  What is reported on a declaration of a program, in the
  session that it is run in.
-/
inductive Reports
    (s : Session) :
    Except ParseError Decl → List Diagnostic → Prop where
  | unread
      (p : ParseError) :
      s.Reports (.error p) [.structural p]
  | value
      {d : Decl} {v : Value} {m : Machine}
      (h : d.evaluate standardLimit ⟨s.env, []⟩ = .ok v m) :
      s.Reports (.ok d) []
  | raised
      {d : Decl} {e : RuntimeError} {m : Machine}
      (h :
        d.evaluate standardLimit ⟨s.env, []⟩ =
          .error (.error e) m) :
      s.Reports (.ok d) [.runtime e]

/- What is printed first is no error. -/
theorem errors_eq_of_events_eq
    {r more : Report}
    {texts : List String}
    (h : r.events = texts.map .printed ++ more.events) :
    r.errors = more.errors := by
  unfold Report.errors
  rw [h]
  clear h
  induction texts with
  | nil => rfl
  | cons text texts ih => exact ih

/- After a declaration, there still is a scope. -/
theorem scopes_ne_nil_of_evaluate
    (hScopes : s.env.scopes ≠ [])
    (limit : Int)
    (d : Decl) :
    (Eval.final (d.evaluate limit ⟨s.env, []⟩)).env.scopes ≠
      [] :=
  (d.keepsShape_exec limit limit.toNat _
    hScopes).scopes_ne_nil hScopes

/-
  Unless a fault ends the run, a declaration is reported on,
  and the others are run in the session that it leaves.
-/
theorem runAll_cons_cases
    (hScopes : s.env.scopes ≠ [])
    (item : Except ParseError Decl) :
    (∃ (next : Session) (reported : List Diagnostic),
        next.env.scopes ≠ [] ∧ s.Reports item reported ∧
          ∀ items,
            (s.runAll (item :: items)).1 =
                (next.runAll items).1 ∧
              (s.runAll (item :: items)).2.errors =
                reported ++ (next.runAll items).2.errors) ∨
      ∀ items, (s.runAll (item :: items)).2.errors = [] := by
  cases item with
  | error p =>
      exact .inl ⟨s, _, hScopes, .unread p,
        fun _ => ⟨rfl, rfl⟩⟩
  | ok d =>
      have hKept :=
        scopes_ne_nil_of_evaluate hScopes standardLimit d
      cases hRun : d.evaluate standardLimit ⟨s.env, []⟩ with
      | ok v m =>
          rw [hRun] at hKept
          refine .inl ⟨⟨m.env⟩, _, hKept, .value hRun,
            fun items => ?_⟩
          rw [runAll, hRun]
          exact ⟨rfl, errors_eq_of_events_eq rfl⟩
      | error stop m =>
          rw [hRun] at hKept
          cases stop with
          | error e =>
              refine .inl ⟨⟨m.env⟩, _, hKept, .raised hRun,
                fun items => ?_⟩
              rw [runAll, hRun]
              refine ⟨rfl, ?_⟩
              have hAfter :
                  [Diagnostic.runtime e] ++
                      (runAll ⟨m.env⟩ items).2.errors =
                    ((runAll ⟨m.env⟩ items).2.after
                      [.reported (.runtime e)]).errors :=
                rfl
              rw [hAfter]
              exact errors_eq_of_events_eq
                (List.append_assoc _ _ _)
          | fault f =>
              have hNone : Report.empty.errors = [] := rfl
              refine .inr fun items => ?_
              rw [runAll, hRun, ← hNone]
              exact errors_eq_of_events_eq
                (List.append_nil _).symm

/- The error of a declaration is on a line of its tokens. -/
theorem line_mem_lines_of_evaluate
    {ts : List Token}
    (hDerives :
      Decl.Derives .optional groups depth ts d)
    (hRoom : depth ≤ standardLimit.toNat)
    (hScopes : s.env.scopes ≠ [])
    (h :
      d.evaluate standardLimit ⟨s.env, []⟩ =
        .error (.error e) m) :
    e.line ∈ d.lines 0 :=
  hDerives.isOn_exec hRoom standardLimit 0 _ hScopes _ _ h e
    rfl

/- It is thus the line of a token that was consumed. -/
theorem exists_token_of_mem_lines
    {ts : List Token}
    (hDerives :
      Decl.Derives .optional groups depth ts d)
    {line : Int}
    (h : line ∈ d.lines 0) :
    ∃ p ∈ d.tokens 0, p.2 ∈ ts ∧ p.2.line = line := by
  rcases List.mem_map.mp h with ⟨p, hp, hLine⟩
  exact ⟨p, hp, hDerives.mem_of_mem_tokens hp, hLine⟩

/-
  What is reported on a declaration is on a line of its
  tokens, and so in front of what is reported after it.
-/
theorem rises_of_reports
    {ts : List Token}
    {low high last : Int}
    {reported : List Diagnostic}
    {lines : List Int}
    (h : s.Reports (.ok d) reported)
    (hDerives :
      Decl.Derives .optional groups depth ts d)
    (hRoom : depth ≤ standardLimit.toNat)
    (hScopes : s.env.scopes ≠ [])
    (hTokens : ∀ t ∈ ts, low ≤ t.line ∧ t.line ≤ high)
    (hNext : low ≤ high)
    (hMore : Rises high last lines) :
    Rises low last (reported.map Diagnostic.line ++ lines) := by
  cases h with
  | value hRun => exact hMore.of_le hNext
  | raised hRun =>
      have hLine :=
        line_mem_lines_of_evaluate hDerives hRoom hScopes hRun
      rcases exists_token_of_mem_lines hDerives hLine with
        ⟨p, -, hToken, hSame⟩
      rcases hTokens p.2 hToken with ⟨hLow, hHigh⟩
      rw [hSame] at hLow hHigh
      exact rises_cons.mpr ⟨hLow, hMore.of_le hHigh⟩

------------------------------------------------------------
-- Programs
------------------------------------------------------------

/-
  The errors of a program are on rising lines.  What goes
  along the program is that the tokens left are in order, and
  that there is a scope to run the declarations in.
-/
theorem rises_runAll
    (hRoom : set.limits.depthRoom ≤ standardLimit.toNat)
    (hScopes : s.env.scopes ≠ [])
    (hOrder : set.InOrder us) :
    Rises (set.lineAt us) set.endLine
      ((s.runAll (Decl.parseAll set us)).2.errors.map
        Diagnostic.line) := by
  induction us using Decl.parseAll_induction set
    generalizing s with
  | nil =>
      rw [Decl.parseAll_nil]
      exact rises_nil.mpr (Int.le_refl _)
  | done t more d rest hParse ih =>
      rw [Decl.parseAll_of_done hParse]
      rcases Decl.inOrder_of_done hOrder hParse with
        ⟨hRest, hNext, ts, hDerives, hTokens⟩
      rcases runAll_cons_cases hScopes (.ok d) with
        ⟨next, reported, hKept, hReports, hRun⟩ | hFault
      · have hMore := ih hKept hRest
        rw [(hRun _).2, List.map_append]
        exact rises_of_reports hReports hDerives hRoom hScopes
          hTokens hNext hMore
      · rw [hFault]
        exact rises_nil.mpr hOrder.le
  | failed t more f hParse ih =>
      rw [Decl.parseAll_of_failed hParse]
      rcases Decl.inOrder_of_failed hOrder hParse with
        ⟨hRest, hLow, hHigh⟩
      have hMore := ih hScopes hRest
      exact rises_cons.mpr ⟨hLow, hMore.of_le hHigh⟩

/- Lexical errors are not among the errors of a program. -/
theorem lexical_notMem_errors
    (hScopes : s.env.scopes ≠ [])
    (items : List (Except ParseError Decl))
    (l : LexError) :
    .lexical l ∉ (s.runAll items).2.errors := by
  intro h
  induction items generalizing s with
  | nil => cases h
  | cons item items ih =>
      rcases runAll_cons_cases hScopes item with
        ⟨next, reported, hKept, hReports, hRun⟩ | hFault
      · rw [(hRun items).2, List.mem_append] at h
        rcases h with hFirst | hMore
        · cases hReports with
          | unread p => cases List.mem_singleton.mp hFirst
          | value _ => cases hFirst
          | raised _ => cases List.mem_singleton.mp hFirst
        · exact ih hKept hMore
      · rw [hFault] at h
        cases h

/-
  Whether a declaration of a program raises an error, when it
  is run after all that is before it.
-/
def Raises
    (s : Session)
    (items : List (Except ParseError Decl))
    (d : Decl)
    (e : RuntimeError) : Prop :=
  ∃ before after m,
    items = before ++ .ok d :: after ∧
      d.evaluate standardLimit
          ⟨(s.runAll before).1.env, []⟩ =
        .error (.error e) m

namespace Raises

/- What raises an error is part of the program. -/
theorem mem
    (h : s.Raises items d e) :
    .ok d ∈ items := by
  rcases h with ⟨before, after, m, rfl, -⟩
  simp

/- The first declaration raises its own error. -/
theorem head
    (h :
      d.evaluate standardLimit ⟨s.env, []⟩ =
        .error (.error e) m)
    (items : List (Except ParseError Decl)) :
    s.Raises (.ok d :: items) d e :=
  ⟨[], items, m, rfl, h⟩

/- Others raise theirs in the session that it leaves. -/
theorem cons
    {next : Session}
    {item : Except ParseError Decl}
    (hNext :
      ∀ before,
        (s.runAll (item :: before)).1 =
          (next.runAll before).1)
    (h : next.Raises items d e) :
    s.Raises (item :: items) d e := by
  rcases h with ⟨before, after, m, rfl, hRun⟩
  rw [← hNext] at hRun
  exact ⟨item :: before, after, m, rfl, hRun⟩

end Raises

/-
  A runtime error is raised by a declaration, and is on the
  line of one of its tokens.
-/
theorem exists_raises_of_mem_errors
    (hItems :
      ∀ d, .ok d ∈ items →
        ∃ ts, Decl.Derives .optional groups depth ts d)
    (hRoom : depth ≤ standardLimit.toNat)
    (hScopes : s.env.scopes ≠ [])
    (h : .runtime e ∈ (s.runAll items).2.errors) :
    ∃ d, s.Raises items d e ∧ e.line ∈ d.lines 0 := by
  induction items generalizing s with
  | nil => cases h
  | cons item items ih =>
      rcases runAll_cons_cases hScopes item with
        ⟨next, reported, hKept, hReports, hRun⟩ | hFault
      · rw [(hRun items).2, List.mem_append] at h
        rcases h with hFirst | hMore
        · cases hReports with
          | unread p => cases List.mem_singleton.mp hFirst
          | value _ => cases hFirst
          | @raised d _ m hRaised =>
              cases List.mem_singleton.mp hFirst
              rcases hItems d List.mem_cons_self with
                ⟨ts, hDerives⟩
              exact ⟨d, Raises.head hRaised items,
                line_mem_lines_of_evaluate hDerives hRoom
                  hScopes hRaised⟩
        · have hRest : ∀ d, .ok d ∈ items →
              ∃ ts,
                Decl.Derives .optional groups depth ts d :=
            fun d hd => hItems d (List.mem_cons_of_mem _ hd)
          rcases ih hRest hKept hMore with
            ⟨d, hRaises, hLine⟩
          exact ⟨d, hRaises.cons fun _ => (hRun _).1, hLine⟩
      · rw [hFault] at h
        cases h

------------------------------------------------------------
-- Sources
------------------------------------------------------------

/- All levels that are read are also run. -/
theorem depthRoom_le :
    Limits.standard.depthRoom ≤ standardLimit.toNat := by
  decide

/- Lexical errors are reported as they are. -/
theorem errors_lexical
    (ls : List LexError) :
    (Report.empty.after
        (ls.map fun l => .reported (.lexical l))).errors =
      ls.map .lexical := by
  induction ls with
  | nil => rfl
  | cons l ls ih => exact congrArg (List.cons (.lexical l)) ih

/- A source with lexical errors is not read any further. -/
theorem errors_run_of_errorsOf
    {source : String}
    (h : Token.errorsOf (Token.scan source) ≠ [])
    (s : Session) :
    (s.run source).2.errors =
      (Token.errorsOf (Token.scan source)).map
        .lexical := by
  unfold run Decl.ofSource
  dsimp only
  cases hErrors : Token.errorsOf (Token.scan source) with
  | nil => exact absurd hErrors h
  | cons l ls => exact errors_lexical (l :: ls)

/- Another source is run as the program that is read. -/
theorem errors_run_of_no_errorsOf
    {source : String}
    (h : Token.errorsOf (Token.scan source) = [])
    (s : Session) :
    (s.run source).2.errors =
      (s.runAll (Decl.parseAll
        ⟨.standard, 1 + Token.newlines source.toList⟩
        (Token.ofSource source))).2.errors := by
  unfold run
  rw [Decl.ofSource_of_errorsOf h]

/- The errors of a source are on rising lines. -/
theorem rises_errors_run
    (hScopes : s.env.scopes ≠ [])
    (source : String) :
    Rises 1 (1 + Token.newlines source.toList)
      ((s.run source).2.errors.map Diagnostic.line) := by
  by_cases h : Token.errorsOf (Token.scan source) = []
  · rw [errors_run_of_no_errorsOf h]
    have hTokens :
        1 ≤ Setting.lineAt
            ⟨.standard, 1 + Token.newlines source.toList⟩
            (Token.ofSource source) ∧
          Setting.InOrder
            ⟨.standard, 1 + Token.newlines source.toList⟩
            (Token.ofSource source) :=
      Setting.InOrder.of_rises (Token.rises_ofSource source)
    exact (rises_runAll depthRoom_le hScopes
      hTokens.2).of_le hTokens.1
  · rw [errors_run_of_errorsOf h, List.map_map]
    exact Token.rises_errorsOf source

/-
  A runtime error of a source is raised by a declaration that
  is read off its tokens, and is on the line of one of those.
-/
theorem exists_raises_of_mem_errors_run
    {source : String}
    (hScopes : s.env.scopes ≠ [])
    (h : .runtime e ∈ (s.run source).2.errors) :
    ∃ items d ts,
      Decl.ofSource .standard source = .ok items ∧
        s.Raises items d e ∧
        ts <:+: Token.ofSource source ∧
        Decl.Derives .optional Limits.standard.groupRoom
          Limits.standard.depthRoom ts d ∧
        ∃ p ∈ d.tokens 0, p.2 ∈ ts ∧ p.2.line = e.line := by
  by_cases hErrors :
      Token.errorsOf (Token.scan source) = []
  · rw [errors_run_of_no_errorsOf hErrors] at h
    have hItems (d : Decl)
        (hd : .ok d ∈ Decl.parseAll
          ⟨.standard, 1 + Token.newlines source.toList⟩
          (Token.ofSource source)) :=
      Decl.derives_of_mem_parseAll hd
    rcases exists_raises_of_mem_errors
        (fun d hd => (hItems d hd).imp fun _ => And.right)
        depthRoom_le hScopes h with
      ⟨d, hRaises, hLine⟩
    rcases hItems d hRaises.mem with ⟨ts, hInfix, hDerives⟩
    exact ⟨_, d, ts, Decl.ofSource_of_errorsOf hErrors _,
      hRaises, hInfix, hDerives,
      exists_token_of_mem_lines hDerives hLine⟩
  · rw [errors_run_of_errorsOf hErrors] at h
    rcases List.mem_map.mp h with ⟨l, -, hLexical⟩
    cases hLexical

/- Lexical errors are reported alone, or not at all. -/
theorem lexical_alone_or_notMem
    (hScopes : s.env.scopes ≠ [])
    (source : String) :
    (∃ ls : List LexError,
        (s.run source).2.errors = ls.map .lexical) ∨
      ∀ l, .lexical l ∉ (s.run source).2.errors := by
  by_cases h : Token.errorsOf (Token.scan source) = []
  · rw [errors_run_of_no_errorsOf h]
    exact .inr (lexical_notMem_errors hScopes _)
  · exact .inl ⟨_, errors_run_of_errorsOf h s⟩

/-
  Errors are reported in the order of the source.  Whatever
  was run before and whatever is run, the lines of the errors
  never fall, and are lines of the source.  Lexical errors
  are reported alone.  A runtime error is on the line of one
  of the tokens of the declaration that raised it.
-/
theorem errors_in_source_order
    (actions : List Action)
    (source : String) :
    let s := (fresh.performAll actions).1
    let errors := (s.run source).2.errors
    (errors.map Diagnostic.line).Pairwise (· ≤ ·) ∧
      (∀ r ∈ errors,
        1 ≤ r.line ∧
          r.line ≤ Token.newlines source.toList + 1) ∧
      ((∃ ls : List LexError, errors = ls.map .lexical) ∨
        ∀ l, .lexical l ∉ errors) ∧
      ∀ e, .runtime e ∈ errors →
        ∃ items d ts,
          Decl.ofSource .standard source = .ok items ∧
            s.Raises items d e ∧
            ts <:+: Token.ofSource source ∧
            Decl.Derives .optional Limits.standard.groupRoom
              Limits.standard.depthRoom ts d ∧
            ∃ p ∈ d.tokens 0,
              p.2 ∈ ts ∧ p.2.line = e.line := by
  intro s errors
  have hScopes : s.env.scopes ≠ [] :=
    (faultless_performAll actions).2.scopes_ne_nil
  have hRises := rises_errors_run hScopes source
  refine ⟨hRises.pairwise, fun r hr => ?_,
    lexical_alone_or_notMem hScopes source,
    fun e => exists_raises_of_mem_errors_run hScopes⟩
  have := hRises.le_of_mem (List.mem_map_of_mem hr)
  omega

end Session

end Lox
