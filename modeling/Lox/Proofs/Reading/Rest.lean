import Lox.Proofs.Reading.Decl

/-
  Every attempt leaves a final part of its tokens, whether
  it succeeds or fails, and so does skipping to a boundary.

  Key definitions include:
    * `Attempt.rest`

  Key theorems include:
    * `Expr.rest_parse_suffix`
    * `Stmt.rest_parse_suffix`
    * `Decl.rest_parse_suffix`
    * `resume_suffix`
-/

namespace Lox

variable {set : Setting} {depth : Nat}
variable {t : Token} {ts : List Token}
variable {α β : Type}

------------------------------------------------------------
-- Attempts
------------------------------------------------------------

namespace Attempt

/- The tokens that an attempt has not consumed. -/
def rest : Attempt α → List Token
  | done _ rest => rest
  | failed f => f.rest

/- What a failure leaves. -/
@[simp]
theorem rest_fail
    (line : Int)
    (cause : ParseError.Cause) :
    (fail line cause ts : Attempt α).rest = ts :=
  rfl

/- What a success leaves. -/
@[simp]
theorem rest_done
    (x : α) :
    (done x ts).rest = ts :=
  rfl

/- Two steps leave a final part of what the first leaves. -/
theorem rest_andThen_suffix
    {a : Attempt α}
    {next : α → List Token → Attempt β}
    (hFirst : a.rest <:+ ts)
    (hNext : ∀ x mid, (next x mid).rest <:+ mid) :
    (a.andThen next).rest <:+ ts := by
  cases a with
  | done x mid => exact (hNext x mid).trans hFirst
  | failed f => exact hFirst

/- Being in a block does not change what is left. -/
@[simp]
theorem rest_inBlock
    (a : Attempt α) :
    a.inBlock.rest = a.rest := by
  cases a <;> rfl

/- Expecting a token leaves a final part. -/
theorem rest_expect_suffix
    (set : Setting)
    (kind : Kind)
    (expected : String)
    (ts : List Token) :
    (expect set kind expected ts).rest <:+ ts := by
  cases ts with
  | nil => exact List.suffix_refl _
  | cons t ts =>
      rw [expect]
      split
      · exact List.suffix_cons t ts
      · exact List.suffix_refl _

end Attempt

/- Skipping a semicolon leaves a final part. -/
theorem skipSemicolon_suffix
    (ts : List Token) :
    skipSemicolon ts <:+ ts := by
  rcases exists_append_skipSemicolon ts with ⟨us, hus, -⟩
  exact ⟨us, hus.symm⟩

------------------------------------------------------------
-- Expressions
------------------------------------------------------------

/- Assigning leaves what there was. -/
theorem Expr.rest_assignTo
    (equals : Token)
    (left value : Expr) :
    (assignTo equals left value ts).rest = ts := by
  cases left <;> rfl

/- Reading an expression, or a chain, leaves a final part. -/
theorem Expr.rest_parse_and_parseChain_suffix
    (set : Setting) :
    (∀ level depth groups ts,
      (parse set level depth groups ts).rest <:+ ts) ∧
    (∀ c left depth groups ts,
      (parseChain set c left depth groups ts).rest <:+
        ts) := by
  apply parse_induction
  case noExpressionRoom =>
    intro groups ts
    rw [parse]
    exact List.suffix_refl _
  case expression =>
    intro depth groups ts ih
    rw [parse]
    exact ih
  case assignment =>
    intro depth groups ts ihLeft ihValue
    rw [parse]
    apply Attempt.rest_andThen_suffix ihLeft
    intro left mid
    cases mid with
    | nil => exact List.suffix_refl _
    | cons equals after =>
        dsimp only
        split
        · cases depth with
          | zero => exact List.suffix_cons equals after
          | succ depth =>
              refine List.IsSuffix.trans ?_
                (List.suffix_cons equals after)
              apply Attempt.rest_andThen_suffix
                (ihValue depth after rfl)
              intro value rest
              simp only [rest_assignTo, List.suffix_rfl]
        · exact List.suffix_refl _
  case chain =>
    intro c depth groups ts ihOperand ihChain
    rw [parse]
    exact Attempt.rest_andThen_suffix ihOperand ihChain
  case noOperatorRoom =>
    intro groups op ts hOp
    rw [parse_zero_of_isPrefixOperator hOp]
    exact List.suffix_cons op ts
  case operator =>
    intro depth groups op ts hOp ih
    rw [parse_of_isPrefixOperator hOp]
    refine List.IsSuffix.trans ?_ (List.suffix_cons op ts)
    apply Attempt.rest_andThen_suffix ih
    intro operand rest
    exact List.suffix_refl _
  case operand =>
    intro depth groups ts hHead ih
    rw [parse_unary_eq_primary hHead]
    exact ih
  case missing =>
    intro depth groups
    rw [parse]
    exact List.suffix_refl _
  case literal =>
    intro depth groups t ts hLiteral
    rw [parse_of_isLiteral hLiteral]
    exact List.suffix_cons t ts
  case identifier =>
    intro depth groups t ts hName
    rw [parse_of_identifier hName]
    exact List.suffix_cons t ts
  case noGroupRoom =>
    intro depth t ts hOpening
    rw [parse_zero_of_leftParen hOpening]
    exact List.suffix_cons t ts
  case group =>
    intro depth groups opening ts hOpening ih
    rw [parse_of_leftParen hOpening]
    refine List.IsSuffix.trans ?_
      (List.suffix_cons opening ts)
    apply Attempt.rest_andThen_suffix ih
    intro inner mid
    apply Attempt.rest_andThen_suffix
      (Attempt.rest_expect_suffix set _ _ mid)
    intro closing rest
    exact List.suffix_refl _
  case other =>
    intro depth groups t ts hLiteral hName hOpening
    rw [parse_of_not_primary hLiteral hName hOpening]
    exact List.suffix_refl _
  case noLinkRoom =>
    intro c left groups op ts hOp
    rw [parseChain_zero_of_holds hOp]
    exact List.suffix_cons op ts
  case link =>
    intro c left depth groups op ts hOp ihOperand ihChain
    rw [parseChain_of_holds hOp]
    refine List.IsSuffix.trans ?_ (List.suffix_cons op ts)
    exact Attempt.rest_andThen_suffix ihOperand ihChain
  case stop =>
    intro c left depth groups ts hHead
    rw [parseChain_eq_done hHead]
    exact List.suffix_refl _

/- Reading an expression leaves a final part. -/
theorem Expr.rest_parse_suffix
    (set : Setting)
    (level : Level)
    (depth groups : Nat)
    (ts : List Token) :
    (parse set level depth groups ts).rest <:+ ts :=
  (rest_parse_and_parseChain_suffix set).1
    level depth groups ts

/- So does reading an expression and its end. -/
theorem Expr.rest_parseTerminated_suffix
    (set : Setting)
    (depth : Nat)
    (make : Expr → α)
    (ts : List Token) :
    (parseTerminated set depth make ts).rest <:+ ts := by
  apply Attempt.rest_andThen_suffix
    (rest_parse_suffix set _ _ _ ts)
  intro e rest
  exact skipSemicolon_suffix rest

------------------------------------------------------------
-- Statements and Declarations
------------------------------------------------------------

/- Reading a variable leaves a final part. -/
theorem Decl.rest_parseVariable_suffix
    (set : Setting)
    (depth : Nat)
    (ts : List Token) :
    (parseVariable set depth ts).rest <:+ ts := by
  unfold parseVariable
  cases ts with
  | nil => exact List.suffix_refl _
  | cons name after =>
      dsimp only
      split
      · refine List.IsSuffix.trans ?_
          (List.suffix_cons name after)
        cases after with
        | nil => exact List.suffix_refl _
        | cons equals after =>
            dsimp only
            split
            · exact (Expr.rest_parseTerminated_suffix set
                depth _ after).trans
                (List.suffix_cons equals after)
            · exact skipSemicolon_suffix (equals :: after)
      · exact List.suffix_refl _

/- A declaration leaves a final part if statements do. -/
theorem Decl.rest_parseWith_suffix
    {statement : List Token → Attempt Stmt}
    (hStatement : ∀ ts, (statement ts).rest <:+ ts)
    (ts : List Token) :
    (parseWith set depth statement ts).rest <:+ ts := by
  have hOther :
      ((statement ts).andThen fun s rest =>
        .done (Decl.statement s) rest).rest <:+ ts := by
    apply Attempt.rest_andThen_suffix (hStatement ts)
    intro s rest
    exact List.suffix_refl _
  cases ts with
  | nil => exact hOther
  | cons t ts =>
      rw [parseWith]
      split
      · exact (rest_parseVariable_suffix set depth ts).trans
          (List.suffix_cons t ts)
      · exact hOther

/- A block leaves a final part if declarations do. -/
theorem Decl.rest_parseBlockWith_suffix
    {declaration : List Token → Attempt Decl}
    (hDeclaration : ∀ ts, (declaration ts).rest <:+ ts)
    (ts : List Token) :
    (parseBlockWith set declaration ts).rest <:+ ts := by
  induction ts using parseBlockWith_induction with
  | nil =>
      rw [parseBlockWith]
      exact List.suffix_refl _
  | closing closing after hClosing =>
      rw [parseBlockWith, if_pos hClosing]
      exact List.suffix_cons closing after
  | declaration t after hClosing ih =>
      rw [parseBlockWith, if_neg hClosing]
      apply Attempt.rest_andThen_suffix
        (hDeclaration (t :: after))
      intro d mid
      split
      · rename_i hLess
        apply Attempt.rest_andThen_suffix (ih mid hLess)
        intro ds rest
        exact List.suffix_refl _
      · exact List.suffix_refl _

/- Reading a statement leaves a final part. -/
theorem Stmt.rest_parse_suffix
    (set : Setting)
    (depth : Nat)
    (ts : List Token) :
    (parse set depth ts).rest <:+ ts := by
  induction depth generalizing ts with
  | zero =>
      rw [parse]
      exact List.suffix_refl _
  | succ depth ih =>
      cases ts with
      | nil =>
          rw [parse]
          exact Expr.rest_parseTerminated_suffix set depth _ _
      | cons t ts =>
          by_cases hPrint : t.kind = .printWord
          · rw [parse_of_printWord hPrint]
            exact (Expr.rest_parseTerminated_suffix set depth
              _ ts).trans (List.suffix_cons t ts)
          by_cases hBlock : t.kind = .leftBrace
          · rw [parse_of_leftBrace hBlock]
            refine List.IsSuffix.trans ?_
              (List.suffix_cons t ts)
            apply Attempt.rest_andThen_suffix
            · rw [Attempt.rest_inBlock]
              exact Decl.rest_parseBlockWith_suffix
                (Decl.rest_parseWith_suffix ih) ts
            · intro ds rest
              exact skipSemicolon_suffix rest
          by_cases hIf : t.kind = .ifWord
          · rw [parse_of_ifWord hIf]
            refine List.IsSuffix.trans ?_
              (List.suffix_cons t ts)
            apply Attempt.rest_andThen_suffix
              (Attempt.rest_expect_suffix set _ _ ts)
            intro _ mid
            apply Attempt.rest_andThen_suffix
              (Expr.rest_parse_suffix set _ _ _ mid)
            intro condition mid
            apply Attempt.rest_andThen_suffix
              (Attempt.rest_expect_suffix set _ _ mid)
            intro _ mid
            apply Attempt.rest_andThen_suffix (ih mid)
            intro body mid
            cases mid with
            | nil => exact List.suffix_refl _
            | cons u after =>
                rw [parseOther]
                split
                · refine List.IsSuffix.trans ?_
                    (List.suffix_cons u after)
                  apply Attempt.rest_andThen_suffix (ih after)
                  intro other rest
                  exact List.suffix_refl _
                · exact List.suffix_refl _
          rw [parse_of_expression hPrint hBlock hIf]
          exact Expr.rest_parseTerminated_suffix set depth _ _

/- Reading a declaration leaves a final part. -/
theorem Decl.rest_parse_suffix
    (set : Setting)
    (depth : Nat)
    (ts : List Token) :
    (parse set depth ts).rest <:+ ts :=
  rest_parseWith_suffix (Stmt.rest_parse_suffix set depth) ts

------------------------------------------------------------
-- Boundaries
------------------------------------------------------------

/- Skipping to a boundary leaves a final part. -/
theorem resume_suffix
    (stuck : Bool)
    (opened : Nat)
    (ts : List Token) :
    resume stuck opened ts <:+ ts := by
  induction ts generalizing stuck opened with
  | nil => exact List.suffix_refl _
  | cons t ts ih =>
      have hSkip :
          ∀ opened, resume false opened ts <:+ t :: ts :=
        fun opened =>
          (ih false opened).trans (List.suffix_cons t ts)
      rw [resume.eq_def]
      dsimp only
      split
      · exact List.suffix_refl _
      · split
        · exact hSkip (opened + 1)
        · split
          · exact hSkip 0
          · exact List.suffix_cons t ts
          · exact hSkip _
        · split
          · exact List.suffix_cons t ts
          · exact hSkip _
        · exact hSkip opened

end Lox
