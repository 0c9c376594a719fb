import Lox.Proofs.Grammar.Relaxed

/-
  Positions in programs, and the kinds they admit.

  A position is what kinds that were read so far leave to be
  done: blocks to be closed, parentheses to be closed, and
  statements that an `else` may still go on with.  From each
  position, a kind leads to one other position, or to none.
  The positions are complete and sound for the grammar that
  checks no targets: kinds are the start of a program exactly
  if they lead from the start to some position.

  Key definitions include:
    * `Position`
    * `Position.step`
    * `Position.run`
    * `Position.Completes`

  Key theorems include:
    * `Position.completes_cons`
    * `Position.completes_append`
    * `Position.exists_completes`
    * `Decl.exists_relaxedAll_append`
-/

namespace Lox

------------------------------------------------------------
-- Positions
------------------------------------------------------------

namespace Position

/-
  What a position is within: a block, or a statement after a
  test that has no second branch so far.
-/
inductive Frame where
  | block
  | branch
deriving DecidableEq, Repr

/- What an expression is the last part of, or the test of. -/
inductive Inside where
  | statement
  | condition
deriving DecidableEq, Repr

/-
  Where a position is: at the end of a statement, which a
  semicolon may still belong to or not, in a declaration of
  a variable, in front of a test or of a branch, or in front
  of an operand or an operator within open parentheses.
-/
inductive Spot where
  | boundary
  | closed
  | declaring
  | named
  | condition
  | body
  | operand (inside : Inside) (groups : Nat)
  | operator (inside : Inside) (groups : Nat)
deriving DecidableEq, Repr

end Position

/- A position, with what it is within, the innermost first. -/
structure Position where
  spot : Position.Spot
  frames : List Position.Frame
deriving DecidableEq, Repr

namespace Position

variable {inside : Inside} {groups : Nat}
variable {fs : List Frame} {p q : Position}
variable {k : Kind} {ks ls ms : List Kind}

/- The position in front of a program. -/
def start : Position :=
  ⟨.boundary, []⟩

/- The frames outside of statements that may have ended. -/
def outer : List Frame → List Frame
  | .branch :: fs => outer fs
  | fs => fs

------------------------------------------------------------
-- Steps
------------------------------------------------------------

/- Where a kind leads in front of an operand. -/
def operandStep
    (inside : Inside)
    (groups : Nat)
    (fs : List Frame)
    (k : Kind) : Option Position :=
  if k.isPrefixOperator then
    some ⟨.operand inside groups, fs⟩
  else if k.isLiteral || k == .identifier then
    some ⟨.operator inside groups, fs⟩
  else if k = .leftParen then
    some ⟨.operand inside (groups + 1), fs⟩
  else none

/- Where a kind leads in front of a statement. -/
def statementStep
    (fs : List Frame)
    (k : Kind) : Option Position :=
  match k with
  | .printWord => some ⟨.operand .statement 0, fs⟩
  | .leftBrace => some ⟨.boundary, .block :: fs⟩
  | .ifWord => some ⟨.condition, fs⟩
  | k => operandStep .statement 0 fs k

/- Where a kind leads after a statement. -/
def boundaryStep
    (fs : List Frame)
    (k : Kind) : Option Position :=
  match k with
  | .elseWord =>
      match fs with
      | .branch :: fs => some ⟨.body, fs⟩
      | _ => none
  | .rightBrace =>
      match outer fs with
      | .block :: fs => some ⟨.closed, fs⟩
      | _ => none
  | .varWord => some ⟨.declaring, outer fs⟩
  | k => statementStep (outer fs) k

/- The same where a semicolon may end the statement. -/
def endingStep
    (fs : List Frame)
    (k : Kind) : Option Position :=
  if k = .semicolon then some ⟨.boundary, fs⟩
  else boundaryStep fs k

/- Where a kind leads in front of an operator. -/
def operatorStep
    (inside : Inside)
    (groups : Nat)
    (fs : List Frame)
    (k : Kind) : Option Position :=
  if k.joins then some ⟨.operand inside groups, fs⟩
  else
    match inside, groups with
    | .statement, 0 => endingStep fs k
    | .condition, 0 =>
        if k = .rightParen then some ⟨.body, .branch :: fs⟩
        else none
    | inside, groups + 1 =>
        if k = .rightParen then
          some ⟨.operator inside groups, fs⟩
        else none

/- Where a kind leads. -/
def step
    (p : Position)
    (k : Kind) : Option Position :=
  match p.spot with
  | .boundary => boundaryStep p.frames k
  | .closed => endingStep p.frames k
  | .declaring =>
      if k = .identifier then some ⟨.named, p.frames⟩
      else none
  | .named =>
      if k = .equal then
        some ⟨.operand .statement 0, p.frames⟩
      else endingStep p.frames k
  | .condition =>
      if k = .leftParen then
        some ⟨.operand .condition 0, p.frames⟩
      else none
  | .body => statementStep p.frames k
  | .operand inside groups =>
      operandStep inside groups p.frames k
  | .operator inside groups =>
      operatorStep inside groups p.frames k

/- Where kinds lead, one after the other. -/
def run
    (p : Position) : List Kind → Option Position
  | [] => some p
  | k :: ks => (p.step k).bind fun q => q.run ks

------------------------------------------------------------
-- Completions
------------------------------------------------------------

/- Kinds that may follow a statement within frames. -/
inductive After : List Frame → List Kind → Prop where
  | program
      {ks : List Kind}
      (more : Decl.RelaxedAll ks) :
      After [] ks
  | block
      {fs : List Frame} {ks ls ms : List Kind}
      (body : Decl.RelaxedAll ks)
      (hEnd : MaySemicolon ls)
      (more : After fs ms) :
      After (.block :: fs) (ks ++ .rightBrace :: (ls ++ ms))
  | plain
      {fs : List Frame} {ks : List Kind}
      (more : After fs ks) :
      After (.branch :: fs) ks
  | other
      {fs : List Frame} {ks ls : List Kind}
      (second : Stmt.Relaxed ks)
      (more : After fs ls) :
      After (.branch :: fs) (.elseWord :: (ks ++ ls))

/- Kinds that may follow an expression. -/
inductive Closes
    (fs : List Frame) :
    Inside → Nat → List Kind → Prop where
  | statement
      {ks ls : List Kind}
      (hEnd : MaySemicolon ks)
      (more : After fs ls) :
      Closes fs .statement 0 (ks ++ ls)
  | condition
      {ks ls : List Kind}
      (first : Stmt.Relaxed ks)
      (more : After (.branch :: fs) ls) :
      Closes fs .condition 0 (.rightParen :: (ks ++ ls))
  | group
      {inside : Inside} {groups : Nat} {ks ls : List Kind}
      (tail : Expr.Tail ks)
      (more : Closes fs inside groups ls) :
      Closes fs inside (groups + 1)
        (.rightParen :: (ks ++ ls))

/- Kinds that lead from a position to a program's end. -/
inductive Completes : Position → List Kind → Prop where
  | boundary
      {fs : List Frame} {ks : List Kind}
      (more : After fs ks) :
      Completes ⟨.boundary, fs⟩ ks
  | closed
      {fs : List Frame} {ks ls : List Kind}
      (hEnd : MaySemicolon ks)
      (more : After fs ls) :
      Completes ⟨.closed, fs⟩ (ks ++ ls)
  | declaring
      {fs : List Frame} {ks : List Kind}
      (more : Completes ⟨.named, fs⟩ ks) :
      Completes ⟨.declaring, fs⟩ (.identifier :: ks)
  | named
      {fs : List Frame} {ks : List Kind}
      (more : Completes ⟨.closed, fs⟩ ks) :
      Completes ⟨.named, fs⟩ ks
  | valued
      {fs : List Frame} {ks : List Kind}
      (more : Completes ⟨.operand .statement 0, fs⟩ ks) :
      Completes ⟨.named, fs⟩ (.equal :: ks)
  | condition
      {fs : List Frame} {ks : List Kind}
      (more : Completes ⟨.operand .condition 0, fs⟩ ks) :
      Completes ⟨.condition, fs⟩ (.leftParen :: ks)
  | body
      {fs : List Frame} {ks ls : List Kind}
      (first : Stmt.Relaxed ks)
      (more : After fs ls) :
      Completes ⟨.body, fs⟩ (ks ++ ls)
  | operand
      {fs : List Frame} {inside : Inside} {groups : Nat}
      {ks ls : List Kind}
      (inner : Expr.Relaxed .expression ks)
      (more : Closes fs inside groups ls) :
      Completes ⟨.operand inside groups, fs⟩ (ks ++ ls)
  | operator
      {fs : List Frame} {inside : Inside} {groups : Nat}
      {ks ls : List Kind}
      (tail : Expr.Tail ks)
      (more : Closes fs inside groups ls) :
      Completes ⟨.operator inside groups, fs⟩ (ks ++ ls)

/- Whether a kind leads on to a position that others complete. -/
def Leads
    (o : Option Position)
    (ks : List Kind) : Prop :=
  ∃ q, o = some q ∧ q.Completes ks

/- A position that is led to. -/
@[simp]
theorem leads_some :
    Leads (some q) ks ↔ q.Completes ks := by
  simp [Leads]

/- Nothing leads on from nowhere. -/
@[simp]
theorem not_leads_none :
    ¬ Leads none ks :=
  fun ⟨_, h, _⟩ => nomatch h

/- The start is completed by programs. -/
theorem completes_start :
    start.Completes ks ↔ Decl.RelaxedAll ks := by
  constructor
  · intro h
    cases h with
    | boundary more =>
        cases more with
        | program more => exact more
  · intro h
    exact .boundary (.program h)

------------------------------------------------------------
-- Frames
------------------------------------------------------------

/- What may follow outside may follow. -/
theorem After.of_outer
    (h : After (outer fs) ks) :
    After fs ks := by
  induction fs with
  | nil => exact h
  | cons f fs ih =>
      cases f with
      | block => exact h
      | branch => exact .plain (ih h)

/- What is outside is not the branch of a statement. -/
theorem outer_ne_branch
    {gs : List Frame} :
    ¬ outer fs = .branch :: gs := by
  induction fs with
  | nil => nofun
  | cons f fs ih =>
      cases f with
      | block => nofun
      | branch => exact ih

/- Another declaration may follow. -/
theorem After.cons
    (first : Decl.Relaxed ks)
    (more : After (outer fs) ls) :
    After fs (ks ++ ls) := by
  induction fs with
  | nil =>
      cases more with
      | program more => exact .program (.cons first more)
  | cons f fs ih =>
      cases f with
      | branch => exact .plain (ih more)
      | block =>
          cases more with
          | block body hEnd more =>
              rw [← List.append_assoc]
              exact .block (.cons first body) hEnd more

/-
  What may follow starts with a second branch, with the end
  of a block, or with a declaration.
-/
theorem After.cases_cons
    (h : After fs (k :: ks)) :
    (∃ gs, fs = .branch :: gs ∧ k = .elseWord ∧
      Completes ⟨.body, gs⟩ ks) ∨
    (∃ gs, outer fs = .block :: gs ∧ k = .rightBrace ∧
      Completes ⟨.closed, gs⟩ ks) ∨
    ∃ ls ms,
      ks = ls ++ ms ∧ Decl.Relaxed (k :: ls) ∧
        After (outer fs) ms := by
  generalize hks : k :: ks = ls at h
  induction h with
  | @program ls more =>
      subst hks
      rcases more.exists_cons with ⟨ls, ms, rfl, first, more⟩
      exact .inr (.inr ⟨ls, ms, rfl, first, .program more⟩)
  | @block fs ls ms ns body hEnd more ih =>
      cases ls with
      | nil =>
          cases hks
          exact .inr (.inl ⟨fs, rfl, rfl, .closed hEnd more⟩)
      | cons l ls =>
          cases hks
          rcases body.exists_cons with ⟨ls, os, rfl, first, body⟩
          exact .inr (.inr ⟨ls, _, List.append_assoc _ _ _,
            first, .block body hEnd more⟩)
  | @plain fs ls more ih =>
      rcases ih hks with
        ⟨gs, rfl, rfl, hMore⟩ | ⟨gs, hfs, rfl, hMore⟩ | hFirst
      · cases hMore with
        | body first more =>
            exact .inl ⟨_, rfl, rfl, .body first (.plain more)⟩
      · exact .inr (.inl ⟨gs, hfs, rfl, hMore⟩)
      · exact .inr (.inr hFirst)
  | other second more ih =>
      cases hks
      exact .inl ⟨_, rfl, rfl, .body second more⟩

------------------------------------------------------------
-- Operands and Statements
------------------------------------------------------------

/- A prefix operator leads to another operand. -/
theorem operandStep_of_isPrefixOperator
    (h : k.isPrefixOperator = true) :
    operandStep inside groups fs k =
      some ⟨.operand inside groups, fs⟩ :=
  if_pos h

/- A literal or a name leads to an operator. -/
theorem operandStep_of_operand
    (h : k.isLiteral = true ∨ k = .identifier) :
    operandStep inside groups fs k =
      some ⟨.operator inside groups, fs⟩ := by
  rcases h with h | rfl
  · cases k <;> first | rfl | cases h
  · rfl

/- Other kinds but a parenthesis lead nowhere. -/
theorem operandStep_eq_none
    (hOp : ¬ k.isPrefixOperator = true)
    (hLiteral : ¬ k.isLiteral = true)
    (hName : ¬ k = .identifier)
    (hOpening : ¬ k = .leftParen) :
    operandStep inside groups fs k = none := by
  simp [operandStep, hOp, hLiteral, hName, hOpening]

/- In front of an operand, kinds lead where they should. -/
theorem leads_operandStep :
    Leads (operandStep inside groups fs k) ks ↔
      Completes ⟨.operand inside groups, fs⟩ (k :: ks) := by
  constructor
  · intro h
    unfold operandStep at h
    split at h
    · rename_i hOp
      rw [leads_some] at h
      cases h with
      | operand inner more =>
          exact .operand
            (Expr.relaxed_cons.mpr (.operator hOp inner)) more
    split at h
    · rename_i hOperand
      rw [Bool.or_eq_true, beq_iff_eq] at hOperand
      rw [leads_some] at h
      cases h with
      | operator tail more =>
          exact .operand
            (Expr.relaxed_cons.mpr (.operand hOperand tail))
            more
    split at h
    · rename_i hOpening
      subst hOpening
      rw [leads_some] at h
      cases h with
      | @operand _ _ _ ks ls inner more =>
          cases more with
          | @group _ _ ls ms tail more =>
              have hGroup := Expr.relaxed_cons.mpr
                (.grouping inner tail)
              have hAll := Completes.operand hGroup more
              rwa [List.cons_append, List.append_assoc]
                at hAll
    · exact absurd h not_leads_none
  · intro h
    generalize hks : k :: ks = ls at h
    cases h with
    | operand inner more =>
        rcases inner.opens with ⟨l, ls, rfl, hOpens⟩
        rw [List.cons_append, List.cons.injEq] at hks
        rcases hks with ⟨rfl, rfl⟩
        cases hOpens with
        | operator hOp inner =>
            rw [operandStep_of_isPrefixOperator hOp,
              leads_some]
            exact .operand inner more
        | operand hOperand tail =>
            rw [operandStep_of_operand hOperand, leads_some]
            exact .operator tail more
        | grouping within tail =>
            rw [List.append_assoc]
            exact leads_some.mpr
              (.operand within (.group tail more))

/- An expression at the end of a statement, and its rest. -/
theorem completes_operand_statement :
    Completes ⟨.operand .statement 0, fs⟩ ks ↔
      ∃ ls ms ns,
        ks = ls ++ (ms ++ ns) ∧
          Expr.Relaxed .expression ls ∧ MaySemicolon ms ∧
          After fs ns := by
  constructor
  · intro h
    cases h with
    | operand inner more =>
        cases more with
        | statement hEnd more =>
            exact ⟨_, _, _, rfl, inner, hEnd, more⟩
  · rintro ⟨ls, ms, ns, rfl, inner, hEnd, more⟩
    exact .operand inner (.statement hEnd more)

/- A statement that opens an expression is one. -/
theorem statementStep_of_opens
    (h : Expr.Opens k ks) :
    statementStep fs k = operandStep .statement 0 fs k := by
  cases h with
  | operator hOp inner =>
      cases k <;> first | rfl | cases hOp
  | operand hOperand tail =>
      rcases hOperand with hLiteral | rfl
      · cases k <;> first | rfl | cases hLiteral
      · rfl
  | grouping inner tail => rfl

/- A statement without a word of its own is an expression. -/
theorem statementStep_of_expression
    (hPrint : ¬ k = .printWord)
    (hBlock : ¬ k = .leftBrace)
    (hIf : ¬ k = .ifWord) :
    statementStep fs k = operandStep .statement 0 fs k := by
  unfold statementStep
  split
  · exact absurd rfl hPrint
  · exact absurd rfl hBlock
  · exact absurd rfl hIf
  · rfl

/- In front of a statement, kinds lead where they should. -/
theorem leads_statementStep :
    Leads (statementStep fs k) ks ↔
      Completes ⟨.body, fs⟩ (k :: ks) := by
  constructor
  · intro h
    unfold statementStep at h
    split at h
    · rw [leads_some, completes_operand_statement] at h
      rcases h with ⟨ls, ms, ns, rfl, inner, hEnd, more⟩
      have hAll := Completes.body (.print inner hEnd) more
      rwa [List.append_assoc] at hAll
    · rw [leads_some] at h
      cases h with
      | boundary more =>
          cases more with
          | block body hEnd more =>
              have hAll :=
                Completes.body (.block body hEnd) more
              rwa [List.append_assoc] at hAll
    · rw [leads_some] at h
      cases h with
      | condition more =>
          cases more with
          | operand test more =>
              cases more with
              | condition first more =>
                  cases more with
                  | plain more =>
                      have hAll := Completes.body
                        (.ifThen test first) more
                      rwa [List.append_assoc] at hAll
                  | other second more =>
                      have hAll := Completes.body
                        (.ifElse test first second) more
                      rwa [List.append_assoc,
                        List.append_assoc] at hAll
    · rw [leads_operandStep, completes_operand_statement] at h
      rcases h with ⟨ls, ms, ns, hks, inner, hEnd, more⟩
      rw [hks, ← List.append_assoc]
      exact .body (.expression inner hEnd) more
  · intro h
    generalize hks : k :: ks = ls at h
    cases h with
    | body first more =>
        cases first with
        | expression inner hEnd =>
            rw [List.append_assoc] at hks
            rcases inner.opens with ⟨l, ls, rfl, hOpens⟩
            cases hks
            rw [statementStep_of_opens hOpens,
              leads_operandStep]
            exact .operand inner (.statement hEnd more)
        | print inner hEnd =>
            rw [List.append_assoc] at hks
            cases hks
            exact leads_some.mpr
              (.operand inner (.statement hEnd more))
        | block body hEnd =>
            rw [List.append_assoc] at hks
            cases hks
            exact leads_some.mpr
              (.boundary (.block body hEnd more))
        | ifThen test first =>
            rw [List.append_assoc] at hks
            cases hks
            exact leads_some.mpr (.condition
              (.operand test (.condition first (.plain more))))
        | ifElse test first second =>
            rw [List.append_assoc, List.append_assoc] at hks
            cases hks
            exact leads_some.mpr (.condition
              (.operand test
                (.condition first (.other second more))))

------------------------------------------------------------
-- Declarations
------------------------------------------------------------

/- Where a statement starts, it starts after another one. -/
theorem boundaryStep_of_statementStep
    (h : Leads (statementStep (outer fs) k) ks) :
    boundaryStep fs k = statementStep (outer fs) k := by
  unfold boundaryStep
  split
  · exact absurd h not_leads_none
  · exact absurd h not_leads_none
  · exact absurd h not_leads_none
  · rfl

/-
  Where no statement may go on, and no block is to end, a
  statement starts.
-/
theorem boundaryStep_of_outer
    (hOuter : outer fs = fs)
    (hWord : ¬ k = .varWord)
    (hClosing : k = .rightBrace → fs = []) :
    boundaryStep fs k = statementStep fs k := by
  unfold boundaryStep
  split
  · split
    · exact absurd hOuter outer_ne_branch
    · rfl
  · rw [hClosing rfl]
    rfl
  · exact absurd rfl hWord
  · rw [hOuter]

/- But for an `else`, a branch that ends does not matter. -/
theorem boundaryStep_branch
    (h : ¬ k = .elseWord) :
    boundaryStep (.branch :: fs) k = boundaryStep fs k := by
  cases k <;> first | rfl | exact absurd rfl h

/- After a statement, kinds lead where they should. -/
theorem leads_boundaryStep :
    Leads (boundaryStep fs k) ks ↔ After fs (k :: ks) := by
  constructor
  · intro h
    unfold boundaryStep at h
    split at h
    · split at h
      · rw [leads_some] at h
        cases h with
        | body second more => exact .other second more
      · exact absurd h not_leads_none
    · split at h
      · rename_i hOuter
        rw [leads_some] at h
        cases h with
        | closed hEnd more =>
            apply After.of_outer
            rw [hOuter]
            exact .block .nil hEnd more
      · exact absurd h not_leads_none
    · rw [leads_some] at h
      cases h with
      | declaring more =>
          cases more with
          | named more =>
              cases more with
              | closed hEnd more =>
                  exact .cons (.declare hEnd) more
          | valued more =>
              rcases completes_operand_statement.mp more with
                ⟨ls, ms, ns, rfl, inner, hEnd, more⟩
              have hAll :=
                After.cons (.declareWith inner hEnd) more
              rwa [List.append_assoc] at hAll
    · rw [leads_statementStep] at h
      generalize hks : k :: ks = ls at h
      cases h with
      | body first more => exact .cons (.statement first) more
  · intro h
    rcases h.cases_cons with
      ⟨gs, rfl, rfl, hMore⟩ | ⟨gs, hOuter, rfl, hMore⟩ |
        ⟨ls, ms, rfl, first, more⟩
    · exact leads_some.mpr hMore
    · unfold boundaryStep
      rw [hOuter]
      exact leads_some.mpr hMore
    · generalize hks : k :: ls = ns at first
      cases first with
      | declare hEnd =>
          cases hks
          exact leads_some.mpr
            (.declaring (.named (.closed hEnd more)))
      | declareWith inner hEnd =>
          cases hks
          refine leads_some.mpr (.declaring (.valued ?_))
          exact completes_operand_statement.mpr
            ⟨_, _, _, List.append_assoc _ _ _, inner, hEnd,
              more⟩
      | statement inner =>
          subst hks
          have hStatement :=
            leads_statementStep.mpr (.body inner more)
          rwa [boundaryStep_of_statementStep hStatement]

/- At the end of a statement, kinds lead where they should. -/
theorem leads_endingStep :
    Leads (endingStep fs k) ks ↔
      Completes ⟨.closed, fs⟩ (k :: ks) := by
  constructor
  · intro h
    unfold endingStep at h
    split at h
    · rename_i hSemicolon
      subst hSemicolon
      rw [leads_some] at h
      cases h with
      | boundary more => exact .closed (.inr rfl) more
    · exact .closed (.inl rfl) (leads_boundaryStep.mp h)
  · intro h
    generalize hks : k :: ks = ls at h
    cases h with
    | closed hEnd more =>
        rcases hEnd with rfl | rfl
        · rw [List.nil_append] at hks
          subst hks
          have hBoundary := leads_boundaryStep.mpr more
          unfold endingStep
          split
          · rename_i hSemicolon
            subst hSemicolon
            exact absurd hBoundary not_leads_none
          · exact hBoundary
        · cases hks
          exact leads_some.mpr (.boundary more)

------------------------------------------------------------
-- Operators
------------------------------------------------------------

/-
  What joins two expressions after a statement goes on with
  its last expression instead.
-/
theorem Completes.of_joins
    (h : Completes ⟨.closed, fs⟩ (k :: ks))
    (hJoins : k.joins = true) :
    Completes ⟨.operand .statement 0, fs⟩ ks := by
  rw [← leads_endingStep] at h
  by_cases hMinus : k = .minus
  · subst hMinus
    have hOperand :
        Completes ⟨.operand .statement 0, outer fs⟩ ks :=
      leads_some.mp h
    rw [completes_operand_statement] at hOperand ⊢
    rcases hOperand with
      ⟨ls, ms, ns, rfl, inner, hEnd, more⟩
    exact ⟨ls, ms, ns, rfl, inner, hEnd, more.of_outer⟩
  · have hNone : endingStep fs k = none := by
      cases k <;>
        first
        | rfl
        | exact absurd rfl hMinus
        | cases hJoins
    rw [hNone] at h
    exact absurd h not_leads_none

/- In parentheses, what joins nothing has to close them. -/
theorem operatorStep_group
    (hJoins : ¬ k.joins = true) :
    operatorStep inside (groups + 1) fs k =
      if k = .rightParen then
        some ⟨.operator inside groups, fs⟩
      else none := by
  cases inside <;> exact if_neg hJoins

/- After a test, what joins nothing has to close it. -/
theorem operatorStep_condition
    (hJoins : ¬ k.joins = true) :
    operatorStep .condition 0 fs k =
      if k = .rightParen then some ⟨.body, .branch :: fs⟩
      else none :=
  if_neg hJoins

/- After a last expression, what joins nothing ends it. -/
theorem operatorStep_statement
    (hJoins : ¬ k.joins = true) :
    operatorStep .statement 0 fs k = endingStep fs k :=
  if_neg hJoins

/- In front of an operator, kinds lead where they should. -/
theorem leads_operatorStep :
    Leads (operatorStep inside groups fs k) ks ↔
      Completes ⟨.operator inside groups, fs⟩ (k :: ks) := by
  constructor
  · intro h
    unfold operatorStep at h
    split at h
    · rename_i hJoins
      rw [leads_some] at h
      cases h with
      | operand inner more =>
          exact .operator (.cons hJoins inner) more
    split at h
    · rw [leads_endingStep] at h
      generalize hks : k :: ks = ls at h
      cases h with
      | closed hEnd more =>
          have hAll := Completes.operator .nil
            (.statement hEnd more)
          exact hAll
    · split at h
      · rename_i hClosing
        subst hClosing
        rw [leads_some] at h
        cases h with
        | body first more =>
            exact .operator .nil (.condition first more)
      · exact absurd h not_leads_none
    · split at h
      · rename_i hClosing
        subst hClosing
        rw [leads_some] at h
        cases h with
        | operator tail more =>
            exact .operator .nil (.group tail more)
      · exact absurd h not_leads_none
  · intro h
    generalize hks : k :: ks = ls at h
    cases h with
    | operator tail more =>
        cases tail with
        | cons hJoins next =>
            cases hks
            unfold operatorStep
            rw [if_pos hJoins, leads_some]
            exact .operand next more
        | nil =>
            rw [List.nil_append] at hks
            subst hks
            generalize hls : k :: ks = ls at more
            cases more with
            | statement hEnd more =>
                have hClosed := Completes.closed hEnd more
                rw [← hls] at hClosed
                unfold operatorStep
                split
                · rename_i hJoins
                  exact leads_some.mpr
                    (hClosed.of_joins hJoins)
                · exact leads_endingStep.mpr hClosed
            | condition first more =>
                cases hls
                exact leads_some.mpr (.body first more)
            | group tail more =>
                cases hls
                cases inside <;>
                  exact leads_some.mpr (.operator tail more)

------------------------------------------------------------
-- Runs
------------------------------------------------------------

/- Kinds that complete a position lead on from it. -/
theorem completes_cons :
    p.Completes (k :: ks) ↔ Leads (p.step k) ks := by
  rcases p with ⟨spot, fs⟩
  cases spot with
  | boundary =>
      refine Iff.trans ?_ leads_boundaryStep.symm
      constructor
      · intro h
        cases h with
        | boundary more => exact more
      · exact .boundary
  | closed => exact leads_endingStep.symm
  | declaring =>
      constructor
      · intro h
        cases h with
        | declaring more => exact leads_some.mpr more
      · intro h
        dsimp only [step] at h
        split at h
        · rename_i hName
          subst hName
          exact .declaring (leads_some.mp h)
        · exact absurd h not_leads_none
  | named =>
      constructor
      · intro h
        cases h with
        | valued more => exact leads_some.mpr more
        | named more =>
            rw [← leads_endingStep] at more
            dsimp only [step]
            split
            · rename_i hEqual
              subst hEqual
              exact absurd more not_leads_none
            · exact more
      · intro h
        dsimp only [step] at h
        split at h
        · rename_i hEqual
          subst hEqual
          exact .valued (leads_some.mp h)
        · exact .named (leads_endingStep.mp h)
  | condition =>
      constructor
      · intro h
        cases h with
        | condition more => exact leads_some.mpr more
      · intro h
        dsimp only [step] at h
        split at h
        · rename_i hOpening
          subst hOpening
          exact .condition (leads_some.mp h)
        · exact absurd h not_leads_none
  | body => exact leads_statementStep.symm
  | operand inside groups => exact leads_operandStep.symm
  | operator inside groups => exact leads_operatorStep.symm

/- A run of no kinds stays. -/
@[simp]
theorem run_nil :
    p.run [] = some p :=
  rfl

/- A run takes one step after the other. -/
@[simp]
theorem run_cons :
    p.run (k :: ks) = (p.step k).bind fun q => q.run ks :=
  rfl

/- A run of one kind is a step. -/
theorem run_singleton :
    p.run [k] = p.step k := by
  rw [run_cons]
  cases p.step k <;> rfl

/- A run goes on where another one has led. -/
theorem run_append :
    p.run (ks ++ ls) = (p.run ks).bind fun q => q.run ls := by
  induction ks generalizing p with
  | nil => rfl
  | cons k ks ih =>
      rw [List.cons_append, run_cons, run_cons,
        Option.bind_assoc]
      exact congrArg _ (funext fun q => ih)

/- Kinds that complete a position lead on from it. -/
theorem completes_append :
    p.Completes (ks ++ ls) ↔ Leads (p.run ks) ls := by
  induction ks generalizing p with
  | nil => exact leads_some.symm
  | cons k ks ih =>
      rw [List.cons_append, completes_cons, run_cons]
      cases p.step k with
      | none => exact iff_of_false not_leads_none not_leads_none
      | some q => exact leads_some.trans ih

/- Statements within frames can be brought to an end. -/
theorem exists_after
    (fs : List Frame) :
    ∃ ks, After fs ks := by
  induction fs with
  | nil => exact ⟨[], .program .nil⟩
  | cons f fs ih =>
      rcases ih with ⟨ks, more⟩
      cases f with
      | block => exact ⟨_, .block .nil (.inl rfl) more⟩
      | branch => exact ⟨ks, .plain more⟩

/- There is an expression. -/
theorem relaxed_nilWord :
    Expr.Relaxed .expression [.nilWord] :=
  Expr.relaxed_cons.mpr (.operand (.inl rfl) .nil)

/- So can expressions within parentheses. -/
theorem exists_closes
    (inside : Inside)
    (groups : Nat)
    (fs : List Frame) :
    ∃ ks, Closes fs inside groups ks := by
  rcases exists_after fs with ⟨ks, more⟩
  induction groups with
  | zero =>
      cases inside with
      | statement => exact ⟨_, .statement (.inl rfl) more⟩
      | condition =>
          have hFirst :=
            Stmt.Relaxed.expression relaxed_nilWord (.inl rfl)
          exact ⟨_, .condition hFirst (.plain more)⟩
  | succ groups ih =>
      rcases ih with ⟨ls, more⟩
      exact ⟨_, .group .nil more⟩

/- Every position can be brought to an end. -/
theorem exists_completes
    (p : Position) :
    ∃ ks, p.Completes ks := by
  rcases p with ⟨spot, fs⟩
  rcases exists_after fs with ⟨ks, more⟩
  have hClosed := Completes.closed (.inl rfl) more
  have hOperand :
      ∀ inside groups,
        ∃ ks, Completes ⟨.operand inside groups, fs⟩ ks := by
    intro inside groups
    rcases exists_closes inside groups fs with ⟨ls, more⟩
    exact ⟨_, .operand relaxed_nilWord more⟩
  cases spot with
  | boundary => exact ⟨ks, .boundary more⟩
  | closed => exact ⟨_, hClosed⟩
  | declaring => exact ⟨_, .declaring (.named hClosed)⟩
  | named => exact ⟨_, .named hClosed⟩
  | condition =>
      rcases hOperand .condition 0 with ⟨ls, more⟩
      exact ⟨_, .condition more⟩
  | body =>
      have hFirst :=
        Stmt.Relaxed.expression relaxed_nilWord (.inl rfl)
      exact ⟨_, .body hFirst more⟩
  | operand inside groups => exact hOperand inside groups
  | operator inside groups =>
      rcases exists_closes inside groups fs with ⟨ls, more⟩
      exact ⟨_, .operator .nil more⟩

------------------------------------------------------------
-- Ends
------------------------------------------------------------

/- After a statement that may end a program, it may end. -/
theorem Completes.after_of_closed
    (h : Completes ⟨.closed, fs⟩ []) :
    After fs [] := by
  generalize hks : [] = ks at h
  cases h with
  | closed hEnd more =>
      rw [← hks]
      rwa [(List.append_eq_nil_iff.mp hks.symm).2] at more

/- The same where a variable may be given a value. -/
theorem Completes.after_of_named
    (h : Completes ⟨.named, fs⟩ []) :
    After fs [] := by
  cases h with
  | named more => exact more.after_of_closed

/- Only after a statement's last expression it may end. -/
theorem Completes.of_operator
    (h : Completes ⟨.operator inside groups, fs⟩ []) :
    inside = .statement ∧ groups = 0 ∧ After fs [] := by
  generalize hks : [] = ks at h
  cases h with
  | operator tail more =>
      rw [← hks]
      rw [(List.append_eq_nil_iff.mp hks.symm).2] at more
      generalize hls : [] = ls at more
      cases more with
      | statement hEnd more =>
          rw [← hls]
          rw [(List.append_eq_nil_iff.mp hls.symm).2] at more
          exact ⟨rfl, rfl, more⟩
      | condition first more => cases hls
      | group tail more => cases hls

/- In front of an operand, a program does not end. -/
theorem not_completes_operand_nil :
    ¬ Completes ⟨.operand inside groups, fs⟩ [] := by
  intro h
  generalize hks : [] = ks at h
  cases h with
  | operand inner more =>
      rw [(List.append_eq_nil_iff.mp hks.symm).1] at inner
      exact Expr.not_relaxed_nil inner

/- In front of a statement, a program does not end. -/
theorem not_completes_body_nil :
    ¬ Completes ⟨.body, fs⟩ [] := by
  intro h
  generalize hks : [] = ks at h
  cases h with
  | body first more =>
      rw [(List.append_eq_nil_iff.mp hks.symm).1] at first
      exact Stmt.not_relaxed_nil first

/- Within a block, a program does not end. -/
theorem not_after_block_nil :
    ¬ After (.block :: fs) [] := by
  intro h
  generalize hks : [] = ks at h
  cases h with
  | block body hEnd more =>
      exact List.cons_ne_nil _ _
        (List.append_eq_nil_iff.mp hks.symm).2

/- A second branch may be left out at the end. -/
theorem After.of_branch
    (h : After (.branch :: fs) []) :
    After fs [] := by
  cases h with
  | plain more => exact more

end Position

/- Kinds start a program exactly if they lead somewhere. -/
theorem Decl.exists_relaxedAll_append :
    (∃ ls, Decl.RelaxedAll (ks ++ ls)) ↔
      ∃ q, Position.start.run ks = some q := by
  constructor
  · rintro ⟨ls, hAll⟩
    rw [← Position.completes_start,
      Position.completes_append] at hAll
    rcases hAll with ⟨q, hRun, -⟩
    exact ⟨q, hRun⟩
  · rintro ⟨q, hRun⟩
    rcases q.exists_completes with ⟨ls, hls⟩
    refine ⟨ls, ?_⟩
    rw [← Position.completes_start, Position.completes_append]
    exact ⟨q, hRun, hls⟩

end Lox
