import Lox.Proofs.Grammar.Position
import Lox.Proofs.Reading.Progress

/-
  Attempts go from position to position.

  The tokens that an attempt consumes lead from one position
  in a program to another.  Where it fails at a token, the
  token leads no further; where it fails at the end of the
  input, the program may not end there.

  Key definitions include:
    * `Position.Agrees`
    * `Failure.Shows`
    * `Attempt.Traces`

  Key theorems include:
    * `Attempt.Traces.andThen`
    * `Expr.traces_parse`
    * `Stmt.traces_parse`
    * `Decl.traces_parse`
-/

namespace Lox

variable {set : Setting} {depth groups : Nat}
variable {t : Token} {ts us vs rest : List Token}
variable {p q r : Position} {k : Kind}
variable {α β : Type}

------------------------------------------------------------
-- Definitions
------------------------------------------------------------

/-
  Whether a position admits of the tokens that come next what
  another one does: the next token leads to the same, and the
  program may not end at the first only.
-/
structure Position.Agrees
    (ts : List Token)
    (q r : Position) : Prop where
  step_eq :
    ∀ t ∈ ts.head?, q.step t.kind = r.step t.kind
  completes_nil :
    ts = [] → q.Completes [] → r.Completes []

/-
  What a failure shows at a position that the tokens `us`
  have led to: a token that leads no further, the end of the
  input where no program ends, a token that was consumed, or
  the line on which nesting has become too deep.
-/
inductive Failure.Shows
    (set : Setting)
    (q : Position)
    (us : List Token) : Failure → Prop where
  | unexpectedToken
      {t : Token} {rest : List Token} {opened : Nat}
      {expected : String}
      (hStep : q.step t.kind = none) :
      Shows set q us
        ⟨⟨t.line, .unexpectedToken t.lexeme expected⟩,
          t :: rest, opened⟩
  | wrongToken
      {t : Token} {rest : List Token} {opened : Nat}
      {expected : String}
      (hStep : q.step t.kind = none) :
      Shows set q us
        ⟨⟨t.line, .wrongToken t.lexeme expected⟩,
          t :: rest, opened⟩
  | endOfInput
      {opened : Nat}
      (hEnd : ¬ q.Completes []) :
      Shows set q us ⟨⟨set.endLine, .endOfInput⟩, [], opened⟩
  | invalidTarget
      {t : Token} {rest : List Token} {opened : Nat}
      {target : String}
      (hToken : t ∈ us) :
      Shows set q us
        ⟨⟨t.line, .invalidTarget target⟩, rest, opened⟩
  | tooManyGroups
      {t : Token} {rest : List Token} {opened : Nat}
      {limit : Int}
      (hToken : t ∈ us) :
      Shows set q us
        ⟨⟨t.line, .nestingTooDeep limit⟩, rest, opened⟩
  | tooDeep
      {rest : List Token} {opened : Nat} {limit : Int} :
      Shows set q us
        ⟨⟨set.lineAt rest, .nestingTooDeep limit⟩, rest,
          opened⟩

/-
  Whether an attempt at reading `ts` goes from the position
  `p` to one that agrees with `q`, or to a failure that shows
  where it is.
-/
inductive Attempt.Traces
    (set : Setting)
    (p q : Position)
    (ts : List Token) : Attempt α → Prop where
  | done
      {x : α} {us rest : List Token} {r : Position}
      (hTokens : ts = us ++ rest)
      (hRun : p.run (us.map Token.kind) = some r)
      (hAgrees : r.Agrees rest q) :
      Traces set p q ts (.done x rest)
  | failed
      {f : Failure} {us : List Token} {r : Position}
      (hTokens : ts = us ++ f.rest)
      (hRun : p.run (us.map Token.kind) = some r)
      (hShows : f.Shows set r us) :
      Traces set p q ts (.failed f)

------------------------------------------------------------
-- Agreement
------------------------------------------------------------

namespace Position.Agrees

/- A position agrees with itself. -/
theorem refl
    (q : Position)
    (ts : List Token) :
    q.Agrees ts q where
  step_eq _ _ := rfl
  completes_nil _ h := h

/- Positions agree by way of another one. -/
theorem trans
    (h : p.Agrees ts q)
    (h' : q.Agrees ts r) :
    p.Agrees ts r where
  step_eq t ht := (h.step_eq t ht).trans (h'.step_eq t ht)
  completes_nil hts hp :=
    h'.completes_nil hts (h.completes_nil hts hp)

/- A token that leads to the same makes positions agree. -/
theorem of_step_eq
    (h : q.step t.kind = r.step t.kind) :
    q.Agrees (t :: ts) r where
  step_eq u hu := by
    cases hu
    exact h
  completes_nil hts := nomatch hts

end Position.Agrees

/- What is shown at a position is shown at one that agrees. -/
theorem Failure.Shows.of_agrees
    {f : Failure}
    (hAgrees : q.Agrees f.rest r)
    (h : f.Shows set r us) :
    f.Shows set q us := by
  cases h with
  | unexpectedToken hStep =>
      exact .unexpectedToken
        ((hAgrees.step_eq _ rfl).trans hStep)
  | wrongToken hStep =>
      exact .wrongToken ((hAgrees.step_eq _ rfl).trans hStep)
  | endOfInput hEnd =>
      exact .endOfInput fun hq =>
        hEnd (hAgrees.completes_nil rfl hq)
  | invalidTarget hToken => exact .invalidTarget hToken
  | tooManyGroups hToken => exact .tooManyGroups hToken
  | tooDeep => exact .tooDeep

/- It does not matter what was consumed before. -/
theorem Failure.Shows.mono
    {f : Failure}
    (h : f.Shows set r us)
    (hTokens : us ⊆ vs) :
    f.Shows set r vs := by
  cases h with
  | unexpectedToken hStep => exact .unexpectedToken hStep
  | wrongToken hStep => exact .wrongToken hStep
  | endOfInput hEnd => exact .endOfInput hEnd
  | invalidTarget hToken =>
      exact .invalidTarget (hTokens hToken)
  | tooManyGroups hToken =>
      exact .tooManyGroups (hTokens hToken)
  | tooDeep => exact .tooDeep

------------------------------------------------------------
-- Steps
------------------------------------------------------------

namespace Attempt

/- Consuming nothing, at a position that agrees. -/
theorem traces_done
    (x : α)
    (h : p.Agrees ts q) :
    Traces set p q ts (done x ts) :=
  .done (List.nil_append ts).symm rfl h

/- Failing on the spot. -/
theorem traces_fail
    {line : Int}
    {cause : ParseError.Cause}
    (h : Failure.Shows set p [] ⟨⟨line, cause⟩, ts, 0⟩) :
    Traces set p q ts (fail line cause ts : Attempt α) :=
  .failed (List.nil_append ts).symm rfl h

/- Failing on the spot as nesting has become too deep. -/
theorem traces_tooDeep
    {limit : Int} :
    Traces set p q ts
      (fail (set.lineAt ts) (.nestingTooDeep limit) ts :
        Attempt α) :=
  traces_fail .tooDeep

/- Failing at a parenthesis as too many are open. -/
theorem traces_tooManyGroups
    {limit : Int}
    (hStep : p.step t.kind = some q) :
    Traces set p r (t :: ts)
      (fail t.line (.nestingTooDeep limit) ts :
        Attempt α) :=
  .failed List.singleton_append.symm
    (Position.run_singleton.trans hStep)
    (.tooManyGroups List.mem_cons_self)

/- Failing at the end of the input. -/
theorem traces_endOfInput
    (h : ¬ p.Completes []) :
    Traces set p q []
      (fail set.endLine .endOfInput [] : Attempt α) :=
  traces_fail (.endOfInput h)

namespace Traces

/- Consuming tokens first that lead on. -/
theorem append
    {a : Attempt α}
    (h : Traces set q r ts a)
    (hRun : p.run (us.map Token.kind) = some q) :
    Traces set p r (us ++ ts) a := by
  have hBoth :
      ∀ vs s, q.run (vs.map Token.kind) = some s →
        p.run ((us ++ vs).map Token.kind) = some s := by
    intro vs s hvs
    rw [List.map_append, Position.run_append, hRun]
    exact hvs
  cases h with
  | done hTokens hMore hAgrees =>
      exact .done (by rw [hTokens, List.append_assoc])
        (hBoth _ _ hMore) hAgrees
  | failed hTokens hMore hShows =>
      exact .failed (by rw [hTokens, List.append_assoc])
        (hBoth _ _ hMore)
        (hShows.mono (List.subset_append_right _ _))

/- Consuming a token first that leads on. -/
theorem cons
    {a : Attempt α}
    (h : Traces set q r ts a)
    (hStep : p.step t.kind = some q) :
    Traces set p r (t :: ts) a := by
  have hRun : p.run ([t].map Token.kind) = some q :=
    Position.run_singleton.trans hStep
  exact h.append hRun

/- Starting from a position that agrees. -/
theorem of_agrees
    {a : Attempt α}
    (h : Traces set q r ts a)
    (hAgrees : p.Agrees ts q) :
    Traces set p r ts a := by
  have hCons :
      ∀ us s, us ≠ [] → us.head? = ts.head? →
        q.run (us.map Token.kind) = some s →
          p.run (us.map Token.kind) = some s := by
    intro us s hus hHead hRun
    cases us with
    | nil => exact absurd rfl hus
    | cons u us =>
        have hStep := hAgrees.step_eq u hHead.symm
        rw [List.map_cons, Position.run_cons] at hRun ⊢
        rwa [hStep]
  cases h with
  | @done x us rest s hTokens hRun hDone =>
      cases us with
      | nil =>
          cases hTokens
          cases hRun
          exact traces_done _ (hAgrees.trans hDone)
      | cons u us =>
          refine .done hTokens (hCons _ _ nofun ?_ hRun) hDone
          rw [hTokens]
          rfl
  | @failed f us s hTokens hRun hShows =>
      cases us with
      | nil =>
          cases hRun
          rw [hTokens, List.nil_append] at hAgrees
          exact .failed hTokens rfl (hShows.of_agrees hAgrees)
      | cons u us =>
          refine .failed hTokens (hCons _ _ nofun ?_ hRun)
            hShows
          rw [hTokens]
          rfl

/- Going on from where the first attempt ends. -/
theorem andThen
    {a : Attempt α}
    {next : α → List Token → Attempt β}
    (h : Traces set p q ts a)
    (hNext :
      ∀ x mid, a = .done x mid →
        Traces set q r mid (next x mid)) :
    Traces set p r ts (a.andThen next) := by
  cases h with
  | failed hTokens hRun hShows =>
      exact .failed hTokens hRun hShows
  | done hTokens hRun hAgrees =>
      rw [hTokens]
      exact ((hNext _ _ rfl).of_agrees hAgrees).append hRun

/- Blocks around an attempt do not matter. -/
theorem inBlock
    {a : Attempt α}
    (h : Traces set p q ts a) :
    Traces set p q ts a.inBlock := by
  cases h with
  | done hTokens hRun hAgrees =>
      exact .done hTokens hRun hAgrees
  | failed hTokens hRun hShows =>
      refine .failed hTokens hRun ?_
      cases hShows with
      | unexpectedToken hStep => exact .unexpectedToken hStep
      | wrongToken hStep => exact .wrongToken hStep
      | endOfInput hEnd => exact .endOfInput hEnd
      | invalidTarget hToken => exact .invalidTarget hToken
      | tooManyGroups hToken => exact .tooManyGroups hToken
      | tooDeep => exact .tooDeep

end Traces

/- Expecting the one token that leads on. -/
theorem traces_expect
    {expected : String}
    (hStep : p.step k = some q)
    (hOther :
      ∀ t ∈ ts.head?, ¬ t.kind = k → p.step t.kind = none)
    (hEnd : ¬ p.Completes []) :
    Traces set p q ts (expect set k expected ts) := by
  cases ts with
  | nil => exact traces_endOfInput hEnd
  | cons t ts =>
      rw [expect]
      split
      · rename_i hKind
        exact (traces_done t (.refl q ts)).cons
          (by rwa [hKind])
      · rename_i hKind
        exact traces_fail (.wrongToken (hOther t rfl hKind))

end Attempt

open Attempt

------------------------------------------------------------
-- Expressions
------------------------------------------------------------

/- What an expression stops at joins it to no other one. -/
theorem Level.Stops.not_joins
    (h : Stops .expression ts)
    (ht : t ∈ ts.head?) :
    ¬ t.kind.joins = true := by
  intro hJoins
  refine h t ht ?_
  rcases Bool.or_eq_true_iff.mp hJoins with hEqual | hInfix
  · exact .inl ⟨eq_of_beq hEqual, .inl rfl⟩
  · rcases List.any_eq_true.mp hInfix with ⟨c, -, hc⟩
    exact .inr ⟨c, hc, .inl rfl⟩

/- An equality sign, a value, and a look at the target. -/
theorem Expr.traces_assignTo
    {equals : Token}
    {a : Attempt Expr}
    (h : Traces set q r ts a)
    (hStep : p.step equals.kind = some q)
    (left : Expr) :
    Traces set p r (equals :: ts)
      (a.andThen (assignTo equals left)) := by
  have hOther :
      ∀ target,
        Traces set p r (equals :: ts)
          (a.andThen fun _ rest =>
            (fail equals.line (.invalidTarget target) rest :
              Attempt Expr)) := by
    intro target
    cases h with
    | failed hTokens hRun hShows =>
        exact (Traces.failed hTokens hRun hShows).cons hStep
    | @done x us rest s hTokens hRun hAgrees =>
        have hAll :
            p.run ((equals :: us).map Token.kind) =
              some s := by
          rw [List.map_cons, Position.run_cons, hStep]
          exact hRun
        refine .failed ?_ hAll
          (.invalidTarget List.mem_cons_self)
        rw [hTokens]
        rfl
  cases left with
  | identifier name =>
      refine Traces.cons (h.andThen ?_) hStep
      exact fun x mid _ => traces_done _ (.refl r mid)
  | _ => exact hOther _

/-
  An assignment goes from operand to operator if what is left
  of the equality sign does, and if its value does.
-/
theorem Expr.traces_parse_assignment
    {inside : Position.Inside}
    {n : Nat}
    {fs : List Position.Frame}
    (hLeft :
      Traces set ⟨.operand inside n, fs⟩
        ⟨.operator inside n, fs⟩ ts
        (parse set (.chain .disjunction) depth groups ts))
    (hValue :
      ∀ below after, depth = below + 1 →
        Traces set ⟨.operand inside n, fs⟩
          ⟨.operator inside n, fs⟩ after
          (parse set .assignment below groups after)) :
    Traces set ⟨.operand inside n, fs⟩
      ⟨.operator inside n, fs⟩ ts
      (parse set .assignment depth groups ts) := by
  rw [parse]
  apply hLeft.andThen
  intro left mid _
  cases mid with
  | nil => exact traces_done _ (.refl _ _)
  | cons equals after =>
      dsimp only
      split
      · rename_i hEquals
        have hStep :
            Position.step ⟨.operator inside n, fs⟩
                equals.kind =
              some ⟨.operand inside n, fs⟩ := by
          rw [hEquals]
          rfl
        cases depth with
        | zero => exact traces_tooDeep.cons hStep
        | succ depth =>
            exact traces_assignTo (hValue depth after rfl)
              hStep left
      · exact traces_done _ (.refl _ _)

/- So does a group if what is in the parentheses does. -/
theorem Expr.traces_parse_group
    {inside : Position.Inside}
    {n : Nat}
    {fs : List Position.Frame}
    {opening : Token}
    (hOpening : opening.kind = .leftParen)
    (hInner :
      Traces set ⟨.operand inside (n + 1), fs⟩
        ⟨.operator inside (n + 1), fs⟩ ts
        (parse set .expression depth groups ts)) :
    Traces set ⟨.operand inside n, fs⟩
      ⟨.operator inside n, fs⟩ (opening :: ts)
      (parse set .primary depth (groups + 1)
        (opening :: ts)) := by
  rw [parse_of_leftParen hOpening]
  have hStep :
      Position.step ⟨.operand inside n, fs⟩ opening.kind =
        some ⟨.operand inside (n + 1), fs⟩ := by
    rw [hOpening]
    rfl
  refine Traces.cons ?_ hStep
  apply hInner.andThen
  intro inner mid hDone
  have hStops := stops_of_parse hDone
  refine Traces.andThen (traces_expect ?_ ?_ ?_)
    fun _ rest _ => traces_done _ (.refl _ rest)
  · cases inside <;> rfl
  · intro t ht hKind
    exact (Position.operatorStep_group
      (hStops.not_joins ht)).trans (if_neg hKind)
  · intro hEnd
    cases hEnd.of_operator.2.1

/- Operands of a chain are not of the innermost level. -/
theorem Chain.operand_ne_primary
    (c : Chain) :
    c.operand ≠ .primary := by
  cases c <;> decide

/- Reading an expression goes from operand to operator. -/
theorem Expr.traces_parse_and_parseChain
    (set : Setting) :
    (∀ level depth groups ts,
      (level = .primary →
        ∀ t ∈ ts.head?, ¬ t.kind.isPrefixOperator = true) →
      ∀ inside n fs,
        Traces set ⟨.operand inside n, fs⟩
          ⟨.operator inside n, fs⟩ ts
          (parse set level depth groups ts)) ∧
    (∀ c left depth groups ts inside n fs,
      Traces set ⟨.operator inside n, fs⟩
        ⟨.operator inside n, fs⟩ ts
        (parseChain set c left depth groups ts)) := by
  apply parse_induction
  case noExpressionRoom =>
    intro groups ts _ inside n fs
    rw [parse]
    exact traces_tooDeep
  case expression =>
    intro depth groups ts ih _
    rw [parse]
    exact ih fun h => by cases h
  case assignment =>
    intro depth groups ts ihLeft ihValue _ inside n fs
    apply traces_parse_assignment
      (ihLeft (fun h => by cases h) inside n fs)
    intro below after hDepth
    exact ihValue below after hDepth (fun h => by cases h)
      inside n fs
  case chain =>
    intro c depth groups ts ihOperand ihChain _ inside n fs
    rw [parse]
    have hOperand :=
      ihOperand (fun h => absurd h c.operand_ne_primary)
        inside n fs
    exact hOperand.andThen fun left mid _ =>
      ihChain left mid inside n fs
  case noOperatorRoom =>
    intro groups op ts hOp _ inside n fs
    rw [parse_zero_of_isPrefixOperator hOp]
    exact traces_tooDeep.cons
      (Position.operandStep_of_isPrefixOperator hOp)
  case operator =>
    intro depth groups op ts hOp ih _ inside n fs
    rw [parse_of_isPrefixOperator hOp]
    have hInner :=
      (ih (fun h => by cases h) inside n fs).andThen
        fun operand mid _ =>
          traces_done (Expr.unary op operand) (.refl _ mid)
    exact hInner.cons
      (Position.operandStep_of_isPrefixOperator hOp)
  case operand =>
    intro depth groups ts hHead ih _
    rw [parse_unary_eq_primary hHead]
    exact ih fun _ => hHead
  case missing =>
    intro depth groups _ inside n fs
    rw [parse]
    exact traces_endOfInput Position.not_completes_operand_nil
  case literal =>
    intro depth groups t ts hLiteral _ inside n fs
    rw [parse_of_isLiteral hLiteral]
    exact (traces_done _ (.refl _ _)).cons
      (Position.operandStep_of_operand (.inl hLiteral))
  case identifier =>
    intro depth groups t ts hName _ inside n fs
    rw [parse_of_identifier hName]
    exact (traces_done _ (.refl _ _)).cons
      (Position.operandStep_of_operand (.inr hName))
  case noGroupRoom =>
    intro depth t ts hOpening _ inside n fs
    rw [parse_zero_of_leftParen hOpening]
    exact traces_tooManyGroups (by rw [hOpening]; rfl)
  case group =>
    intro depth groups opening ts hOpening ih _ inside n fs
    exact traces_parse_group hOpening
      (ih (fun h => by cases h) inside (n + 1) fs)
  case other =>
    intro depth groups t ts hLiteral hName hOpening hFirst
      inside n fs
    rw [parse_of_not_primary hLiteral hName hOpening]
    exact traces_fail (.unexpectedToken
      (Position.operandStep_eq_none (hFirst rfl t rfl)
        hLiteral hName hOpening))
  case noLinkRoom =>
    intro c left groups op ts hOp inside n fs
    rw [parseChain_zero_of_holds hOp]
    exact traces_tooDeep.cons
      (if_pos (Kind.joins_of_holds hOp))
  case link =>
    intro c left depth groups op ts hOp ihOperand ihChain
      inside n fs
    rw [parseChain_of_holds hOp]
    have hOperand :=
      ihOperand (fun h => absurd h c.operand_ne_primary)
        inside n fs
    have hAll := hOperand.andThen fun right mid _ =>
      ihChain right mid inside n fs
    exact hAll.cons (if_pos (Kind.joins_of_holds hOp))
  case stop =>
    intro c left depth groups ts hHead inside n fs
    rw [parseChain_eq_done hHead]
    exact traces_done _ (.refl _ _)

/- Reading an expression goes from operand to operator. -/
theorem Expr.traces_parse
    (set : Setting)
    (depth groups : Nat)
    (ts : List Token)
    (inside : Position.Inside)
    (n : Nat)
    (fs : List Position.Frame) :
    Traces set ⟨.operand inside n, fs⟩
      ⟨.operator inside n, fs⟩ ts
      (parse set .expression depth groups ts) :=
  (traces_parse_and_parseChain set).1 .expression depth groups
    ts nofun inside n fs

------------------------------------------------------------
-- Ends of Statements
------------------------------------------------------------

variable {fs : List Position.Frame}

/- Where a semicolon may end a statement, it is skipped. -/
theorem Attempt.traces_skipSemicolon
    (x : α)
    (hStep :
      ∀ t ∈ ts.head?,
        p.step t.kind = Position.endingStep fs t.kind)
    (hEnd : p.Completes [] → Position.After fs []) :
    Traces set p ⟨.boundary, fs⟩ ts
      (done x (skipSemicolon ts)) := by
  cases ts with
  | nil =>
      refine traces_done x ⟨nofun, fun _ hp => ?_⟩
      exact .boundary (hEnd hp)
  | cons t ts =>
      rw [skipSemicolon]
      have hFirst := hStep t rfl
      split
      · rename_i hSemicolon
        refine (traces_done x (.refl _ ts)).cons ?_
        rw [hFirst, hSemicolon]
        rfl
      · rename_i hSemicolon
        refine traces_done x (.of_step_eq ?_)
        rw [hFirst]
        exact if_neg hSemicolon

/- Reading an expression and its end goes to a boundary. -/
theorem Expr.traces_parseTerminated
    (set : Setting)
    (depth : Nat)
    (make : Expr → α)
    (ts : List Token)
    (fs : List Position.Frame) :
    Traces set ⟨.operand .statement 0, fs⟩ ⟨.boundary, fs⟩ ts
      (parseTerminated set depth make ts) := by
  apply (traces_parse set depth set.limits.groupRoom ts
    .statement 0 fs).andThen
  intro e mid he
  have hStops := stops_of_parse he
  apply traces_skipSemicolon
  · intro t ht
    exact Position.operatorStep_statement
      (hStops.not_joins ht)
  · exact fun h => h.of_operator.2.2

/- Reading a variable goes on from the word in front. -/
theorem Decl.traces_parseVariable
    (set : Setting)
    (depth : Nat)
    (ts : List Token)
    (fs : List Position.Frame) :
    Traces set ⟨.declaring, fs⟩ ⟨.boundary, fs⟩ ts
      (parseVariable set depth ts) := by
  unfold parseVariable
  cases ts with
  | nil => exact traces_endOfInput nofun
  | cons name after =>
      dsimp only
      split
      · rename_i hName
        have hStep :
            Position.step ⟨.declaring, fs⟩ name.kind =
              some ⟨.named, fs⟩ :=
          if_pos hName
        refine Traces.cons ?_ hStep
        cases after with
        | nil =>
            refine traces_done _ ⟨nofun, fun _ h => ?_⟩
            exact .boundary h.after_of_named
        | cons equals after =>
            dsimp only
            split
            · rename_i hEquals
              exact (Expr.traces_parseTerminated set depth _
                after fs).cons (if_pos hEquals)
            · rename_i hEquals
              apply traces_skipSemicolon
              · rintro t ⟨⟩
                exact if_neg hEquals
              · exact fun h => h.after_of_named
      · rename_i hName
        exact traces_fail (.unexpectedToken (if_neg hName))

------------------------------------------------------------
-- Statements and Declarations
------------------------------------------------------------

/-
  A declaration goes to the boundary after it if statements
  do.  What has ended before cannot go on, and the end of a
  block is not read as a declaration.
-/
theorem Decl.traces_parseWith
    {statement : List Token → Attempt Stmt}
    (hStatement :
      ∀ ts,
        Traces set ⟨.body, fs⟩ ⟨.boundary, fs⟩ ts
          (statement ts))
    (hOuter : Position.outer fs = fs)
    (hClosing : t.kind = .rightBrace → fs = []) :
    Traces set ⟨.boundary, fs⟩ ⟨.boundary, fs⟩ (t :: ts)
      (parseWith set depth statement (t :: ts)) := by
  rw [parseWith]
  split
  · rename_i hWord
    have hStep :
        Position.step ⟨.boundary, fs⟩ t.kind =
          some ⟨.declaring, Position.outer fs⟩ := by
      rw [hWord]
      rfl
    rw [hOuter] at hStep
    exact (traces_parseVariable set depth ts fs).cons hStep
  · rename_i hWord
    refine Traces.of_agrees
      ((hStatement (t :: ts)).andThen fun s rest _ =>
        traces_done _ (.refl _ rest))
      (.of_step_eq ?_)
    exact Position.boundaryStep_of_outer hOuter hWord hClosing

/- A block goes on from its opening brace if they do. -/
theorem Decl.traces_parseBlock
    (hDeclaration :
      ∀ t ts,
        ¬ t.kind = .rightBrace →
        Traces set ⟨.boundary, .block :: fs⟩
          ⟨.boundary, .block :: fs⟩ (t :: ts)
          (Decl.parse set depth (t :: ts)))
    (ts : List Token) :
    Traces set ⟨.boundary, .block :: fs⟩ ⟨.closed, fs⟩ ts
      (parseBlock set depth ts) := by
  induction ts using parseBlock_induction set depth with
  | nil =>
      rw [parseBlock_nil]
      apply traces_endOfInput
      rintro ⟨more⟩
      exact Position.not_after_block_nil more
  | closing t ts hClosing =>
      rw [parseBlock_of_rightBrace hClosing]
      refine (traces_done _ (.refl _ ts)).cons ?_
      rw [hClosing]
      rfl
  | declaration t ts hClosing ih =>
      rw [parseBlock_of_not_rightBrace hClosing]
      apply (hDeclaration t ts hClosing).andThen
      intro d mid hd
      exact (ih d mid hd).andThen fun ds rest _ =>
        traces_done _ (.refl _ rest)

/- What comes after a branch goes on from its end. -/
theorem Stmt.traces_parseOther
    (hStatement :
      ∀ ts,
        Traces set ⟨.body, fs⟩ ⟨.boundary, fs⟩ ts
          (parse set depth ts))
    (condition : Expr)
    (body : Stmt)
    (ts : List Token) :
    Traces set ⟨.boundary, .branch :: fs⟩ ⟨.boundary, fs⟩ ts
      (parseOther set depth condition body ts) := by
  cases ts with
  | nil =>
      refine traces_done _ ⟨nofun, ?_⟩
      rintro - ⟨more⟩
      exact .boundary more.of_branch
  | cons t after =>
      rw [parseOther]
      split
      · rename_i hElse
        refine Traces.cons
          ((hStatement after).andThen fun other rest _ =>
            traces_done _ (.refl _ rest)) ?_
        rw [hElse]
        rfl
      · rename_i hElse
        exact traces_done _
          (.of_step_eq (Position.boundaryStep_branch hElse))

/-
  So does what comes after the word for conditions: a test
  in parentheses, and a branch.
-/
theorem Stmt.traces_condition
    (hStatement :
      ∀ fs ts,
        Traces set ⟨.body, fs⟩ ⟨.boundary, fs⟩ ts
          (parse set depth ts))
    (ts : List Token) :
    Traces set ⟨.condition, fs⟩ ⟨.boundary, fs⟩ ts
      ((expect set .leftParen "(" ts).andThen
        fun _ rest =>
      (Expr.parse set .expression depth
          set.limits.groupRoom rest).andThen
        fun condition rest =>
      (expect set .rightParen ")" rest).andThen
        fun _ rest =>
      (parse set depth rest).andThen
        fun body rest =>
          parseOther set depth condition body rest) := by
  refine Traces.andThen
    (traces_expect rfl (fun t _ hKind => if_neg hKind) ?_) ?_
  · intro h
    cases h
  intro _ mid _
  apply (Expr.traces_parse set depth set.limits.groupRoom mid
    .condition 0 fs).andThen
  intro condition mid hTest
  have hStops := Expr.stops_of_parse hTest
  refine Traces.andThen (traces_expect rfl ?_ ?_) ?_
  · intro t ht hKind
    exact (Position.operatorStep_condition
      (hStops.not_joins ht)).trans (if_neg hKind)
  · exact fun h => nomatch h.of_operator.1
  intro _ mid _
  apply (hStatement (.branch :: fs) mid).andThen
  intro body mid _
  exact traces_parseOther (hStatement fs) condition body mid

/- So does an expression, as it starts a statement. -/
theorem Stmt.traces_expression
    (set : Setting)
    (depth : Nat)
    (h :
      ∀ t ∈ ts.head?,
        ¬ t.kind = .printWord ∧ ¬ t.kind = .leftBrace ∧
          ¬ t.kind = .ifWord) :
    Traces set ⟨.body, fs⟩ ⟨.boundary, fs⟩ ts
      (Expr.parseTerminated set depth expression ts) := by
  apply (Expr.traces_parseTerminated set depth expression ts
    fs).of_agrees
  refine ⟨fun t ht => ?_, fun _ hp => ?_⟩
  · rcases h t ht with ⟨hPrint, hBlock, hIf⟩
    exact Position.statementStep_of_expression hPrint hBlock
      hIf
  · exact absurd hp Position.not_completes_body_nil

/- Reading a statement goes to the boundary after it. -/
theorem Stmt.traces_parse
    (set : Setting)
    (depth : Nat)
    (ts : List Token)
    (fs : List Position.Frame) :
    Traces set ⟨.body, fs⟩ ⟨.boundary, fs⟩ ts
      (parse set depth ts) := by
  induction depth generalizing ts fs with
  | zero =>
      rw [parse]
      exact traces_tooDeep
  | succ depth ih =>
      cases ts with
      | nil =>
          rw [parse]
          exact traces_expression set depth
            fun t ht => by cases ht
      | cons t ts =>
          by_cases hPrint : t.kind = .printWord
          · rw [parse_of_printWord hPrint]
            refine (Expr.traces_parseTerminated set depth _
              ts fs).cons ?_
            rw [hPrint]
            rfl
          by_cases hBlock : t.kind = .leftBrace
          · rw [parse_of_leftBrace hBlock]
            have hBody :
                Traces set ⟨.boundary, .block :: fs⟩
                  ⟨.closed, fs⟩ ts
                  (Decl.parseBlock set depth ts) :=
              Decl.traces_parseBlock
                (fun t ts hClosing =>
                  Decl.traces_parseWith (fun ts => ih ts _)
                    rfl fun h => absurd h hClosing) ts
            refine Traces.cons
              (hBody.inBlock.andThen fun ds mid _ =>
                traces_skipSemicolon _ (fun _ _ => rfl)
                  fun h => h.after_of_closed) ?_
            rw [hBlock]
            rfl
          by_cases hIf : t.kind = .ifWord
          · rw [parse_of_ifWord hIf]
            refine Traces.cons
              (traces_condition (fun fs ts => ih ts fs) ts) ?_
            rw [hIf]
            rfl
          rw [parse_of_expression hPrint hBlock hIf]
          apply traces_expression set depth
          rintro u ⟨⟩
          exact ⟨hPrint, hBlock, hIf⟩

/- Reading a declaration goes to the boundary after it. -/
theorem Decl.traces_parse
    (set : Setting)
    (depth : Nat)
    (t : Token)
    (ts : List Token) :
    Traces set .start .start (t :: ts)
      (parse set depth (t :: ts)) :=
  traces_parseWith
    (fun ts => Stmt.traces_parse set depth ts []) rfl
    fun _ => rfl

end Lox
