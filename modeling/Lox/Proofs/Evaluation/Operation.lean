import Lox.Evaluation
import Lox.Tree.Level

/-
  How operators stop a run: by blaming the expression they
  are applied for, or because they are unknown.

  Key definitions include:
    * `Expr.Blames`
    * `Kind.isBinaryOperator`

  Key theorems include:
    * `Expr.blames_of_truth`
    * `Expr.blames_of_applyUnary`
    * `Expr.blames_of_applyBinary`
-/

namespace Lox

variable {α β : Type}
variable {e : Expr} {s : Stop} {op : Token}

------------------------------------------------------------
-- Blame
------------------------------------------------------------

/-
  A stop that blames an expression: an error that is not
  about nesting, or a fault if its text has an open place.
-/
inductive Expr.Blames
    (e : Expr) : Stop → Prop where
  | error
      (line : Int)
      (cause : RuntimeError.Cause)
      (hCause : ∀ limit, cause ≠ .nestingTooDeep limit) :
      Blames e (.error ⟨line, cause⟩)
  | unprintable
      (h : Hole)
      (hMissing : e.missing? = some h) :
      Blames e (.fault (.unprintable h))

/- The operators that stand between evaluated operands. -/
def Kind.isBinaryOperator
    (k : Kind) : Bool :=
  Chain.equality.holds k || Chain.comparison.holds k ||
    Chain.term.holds k || Chain.factor.holds k

/- A changed result fails as the result does. -/
theorem eq_error_of_map_eq_error
    {r : Except Stop α}
    {f : α → β}
    (h : r.map f = .error s) :
    r = .error s := by
  cases r with
  | ok x => cases h
  | error t =>
      cases h
      rfl

namespace Expr

/- Blaming an expression blames it. -/
theorem blames_of_blame
    {line : Int}
    {cause : String → RuntimeError.Cause}
    (hCause :
      ∀ text limit, cause text ≠ .nestingTooDeep limit)
    (h : (e.blame line cause : Except Stop α) = .error s) :
    e.Blames s := by
  unfold blame text textUnless at h
  cases hMissing : e.missing? with
  | none =>
      rw [hMissing] at h
      cases h
      exact .error line _ (hCause _)
  | some hole =>
      rw [hMissing] at h
      cases h
      exact .unprintable hole hMissing

/- Blaming one of two operands blames the expression. -/
theorem blames_of_blameOperands
    {supported : List Ty}
    {x y : Ty}
    (h :
      (e.blameOperands op supported x y : Except Stop α) =
        .error s) :
    e.Blames s := by
  unfold blameOperands at h
  split at h
  · exact blames_of_blame (by simp) h
  · split at h
    · exact blames_of_blame (by simp) h
    · exact blames_of_blame (by simp) h

/- What is no truth value is blamed on the expression. -/
theorem blames_of_truth
    {line : Int}
    {v : Value}
    (h : e.truth line v = .error s) :
    e.Blames s := by
  unfold truth at h
  split at h
  · cases h
  · exact blames_of_blame (by simp) h

------------------------------------------------------------
-- Operators
------------------------------------------------------------

/- How an operator on one operand stops a run. -/
theorem blames_of_applyUnary
    {v : Value}
    (h : e.applyUnary op v = .error s) :
    e.Blames s ∨
      op.kind.isPrefixOperator = false ∧
        s = .fault (.unaryOperator op.lexeme) := by
  unfold applyUnary at h
  split at h
  · split at h
    · cases h
    · exact .inl (blames_of_blame (by simp) h)
  · split at h
    · cases h
    · exact .inl (blames_of_blame (by simp) h)
  · rename_i hMinus hBang
    cases h
    refine .inr ⟨?_, rfl⟩
    unfold Kind.isPrefixOperator
    split
    · rename_i hKind
      exact absurd hKind hBang
    · rename_i hKind
      exact absurd hKind hMinus
    · rfl

/- Comparing for equality blames the expression. -/
theorem blames_of_applyEquality
    {x y : Value}
    (h : e.applyEquality op x y = .error s) :
    e.Blames s := by
  unfold applyEquality at h
  split at h
  · exact blames_of_blame (by simp) h
  · cases h

/- Comparing by size blames the expression. -/
theorem blames_of_applyOrder
    {x y : Value}
    (h : e.applyOrder op x y = .error s) :
    e.Blames s := by
  unfold applyOrder at h
  split at h
  · cases h
  · cases h
  · split at h
    · exact blames_of_blame (by simp) h
    · exact blames_of_blame (by simp) h

/- How an operator on two operands stops a run. -/
theorem blames_of_applyBinary
    {x y : Value}
    (h : e.applyBinary op x y = .error s) :
    e.Blames s ∨
      op.kind.isBinaryOperator = false ∧
        s = .fault (.binaryOperator op.lexeme) := by
  cases hKind : op.kind <;>
    simp only [applyBinary, hKind] at h
  case equalEqual =>
    exact .inl (blames_of_applyEquality
      (eq_error_of_map_eq_error h))
  case bangEqual =>
    exact .inl (blames_of_applyEquality
      (eq_error_of_map_eq_error h))
  case greater =>
    exact .inl (blames_of_applyOrder
      (eq_error_of_map_eq_error h))
  case greaterEqual =>
    exact .inl (blames_of_applyOrder
      (eq_error_of_map_eq_error h))
  case less =>
    exact .inl (blames_of_applyOrder
      (eq_error_of_map_eq_error h))
  case lessEqual =>
    exact .inl (blames_of_applyOrder
      (eq_error_of_map_eq_error h))
  case plus =>
    split at h
    · cases h
    · cases h
    · exact .inl (blames_of_blameOperands h)
  case minus =>
    split at h
    · cases h
    · exact .inl (blames_of_blameOperands h)
  case star =>
    split at h
    · cases h
    · exact .inl (blames_of_blameOperands h)
  case slash =>
    split at h
    · split at h
      · exact .inl (blames_of_blame (by simp) h)
      · cases h
    · exact .inl (blames_of_blameOperands h)
  all_goals
    cases h
    exact .inr ⟨rfl, rfl⟩

end Expr

end Lox
