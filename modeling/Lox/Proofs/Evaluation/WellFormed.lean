import Lox.Proofs.Evaluation.Operation
import Lox.Proofs.Scanning.Token

/-
  Trees that evaluation understands: no place is open, the
  operators are known, and the literals stand for values.
  What is read off a source is such a tree.

  Key definitions include:
    * `Expr.WellFormed`
    * `Stmt.WellFormed`
    * `Decl.WellFormed`

  Key theorems include:
    * `Decl.WellFormed.missing?_eq_none`
    * `Decl.wellFormed_of_ofSource`
-/

namespace Lox

------------------------------------------------------------
-- Definitions
------------------------------------------------------------

/- Expressions that evaluation understands. -/
def Expr.WellFormed : Expr → Prop
  | literal t => ∃ v, t.literal.value = .ok v
  | identifier _ => True
  | grouping e => e.WellFormed
  | unary op e =>
      op.kind.isPrefixOperator = true ∧ e.WellFormed
  | binary left op right =>
      op.kind.isBinaryOperator = true ∧
        left.WellFormed ∧ right.WellFormed
  | logical left _ right => left.WellFormed ∧ right.WellFormed
  | assign _ e => e.WellFormed
  | hole => False

mutual

/- Statements that evaluation understands. -/
def Stmt.WellFormed : Stmt → Prop
  | .expression e => e.WellFormed
  | .print e => e.WellFormed
  | .ifThen c s => c.WellFormed ∧ s.WellFormed
  | .ifElse c s t =>
      c.WellFormed ∧ s.WellFormed ∧ t.WellFormed
  | .block ds => Decl.AllWellFormed ds
  | .hole => False

/- Declarations that evaluation understands. -/
def Decl.WellFormed : Decl → Prop
  | .declare _ none => True
  | .declare _ (some e) => e.WellFormed
  | .statement s => s.WellFormed
  | .hole => False

/- Several declarations that evaluation understands. -/
def Decl.AllWellFormed : List Decl → Prop
  | [] => True
  | d :: ds => d.WellFormed ∧ Decl.AllWellFormed ds

end

------------------------------------------------------------
-- Completeness of Trees
------------------------------------------------------------

/- A well-formed expression has no open place. -/
theorem Expr.WellFormed.missing?_eq_none
    {e : Expr}
    (h : e.WellFormed) :
    e.missing? = none := by
  induction e with
  | literal t => rfl
  | identifier name => rfl
  | grouping e ih => exact ih h
  | unary op e ih => exact ih h.2
  | binary left op right ihLeft ihRight =>
      exact Option.or_eq_none_iff.mpr
        ⟨ihLeft h.2.1, ihRight h.2.2⟩
  | logical left op right ihLeft ihRight =>
      exact Option.or_eq_none_iff.mpr
        ⟨ihLeft h.1, ihRight h.2⟩
  | assign target e ih => exact ih h
  | hole => exact h.elim

mutual

/- A well-formed statement has no open place. -/
theorem Stmt.WellFormed.missing?_eq_none :
    ∀ {s : Stmt}, s.WellFormed → s.missing? = none
  | .expression e, h => by
      rw [Stmt.WellFormed] at h
      rw [Stmt.missing?]
      exact Expr.WellFormed.missing?_eq_none h
  | .print e, h => by
      rw [Stmt.WellFormed] at h
      rw [Stmt.missing?]
      exact Expr.WellFormed.missing?_eq_none h
  | .ifThen c s, h => by
      rw [Stmt.WellFormed] at h
      rw [Stmt.missing?, Option.or_eq_none_iff]
      exact ⟨Expr.WellFormed.missing?_eq_none h.1,
        Stmt.WellFormed.missing?_eq_none h.2⟩
  | .ifElse c s t, h => by
      rw [Stmt.WellFormed] at h
      rw [Stmt.missing?, Option.or_eq_none_iff,
        Option.or_eq_none_iff]
      exact ⟨Expr.WellFormed.missing?_eq_none h.1,
        Stmt.WellFormed.missing?_eq_none h.2.1,
        Stmt.WellFormed.missing?_eq_none h.2.2⟩
  | .block ds, h => by
      rw [Stmt.WellFormed] at h
      rw [Stmt.missing?]
      exact Decl.firstMissing?_eq_none h
  | .hole, h => by
      rw [Stmt.WellFormed] at h
      exact h.elim

/- A well-formed declaration has no open place. -/
theorem Decl.WellFormed.missing?_eq_none :
    ∀ {d : Decl}, d.WellFormed → d.missing? = none
  | .declare name none, _ => by
      rw [Decl.missing?]
  | .declare name (some e), h => by
      rw [Decl.WellFormed] at h
      rw [Decl.missing?]
      exact Expr.WellFormed.missing?_eq_none h
  | .statement s, h => by
      rw [Decl.WellFormed] at h
      rw [Decl.missing?]
      exact Stmt.WellFormed.missing?_eq_none h
  | .hole, h => by
      rw [Decl.WellFormed] at h
      exact h.elim

/- Well-formed declarations have no open place. -/
theorem Decl.firstMissing?_eq_none :
    ∀ {ds : List Decl}, Decl.AllWellFormed ds →
      Decl.firstMissing? ds = none
  | [], _ => by
      rw [Decl.firstMissing?]
  | d :: ds, h => by
      rw [Decl.AllWellFormed] at h
      rw [Decl.firstMissing?, Option.or_eq_none_iff]
      exact ⟨Decl.WellFormed.missing?_eq_none h.1,
        Decl.firstMissing?_eq_none h.2⟩

end

------------------------------------------------------------
-- Derived Trees
------------------------------------------------------------

variable {level : Level} {depth groups : Nat}
variable {endings : Endings}
variable {ts : List Token}

/- Operators of chains are known, or leave operands alone. -/
theorem Chain.wellFormed_join
    {c : Chain}
    {op : Token}
    {left right : Expr}
    (hOp : c.holds op.kind = true)
    (hLeft : left.WellFormed)
    (hRight : right.WellFormed) :
    (c.join left op right).WellFormed := by
  cases c with
  | disjunction => exact ⟨hLeft, hRight⟩
  | conjunction => exact ⟨hLeft, hRight⟩
  | equality =>
      exact ⟨by simp [Kind.isBinaryOperator, hOp], hLeft,
        hRight⟩
  | comparison =>
      exact ⟨by simp [Kind.isBinaryOperator, hOp], hLeft,
        hRight⟩
  | term =>
      exact ⟨by simp [Kind.isBinaryOperator, hOp], hLeft,
        hRight⟩
  | factor =>
      exact ⟨by simp [Kind.isBinaryOperator, hOp], hLeft,
        hRight⟩

/- An expression of proper tokens is well-formed. -/
theorem Expr.Derives.wellFormed
    {e : Expr}
    (h : Derives level depth groups ts e)
    (hProper : ∀ t ∈ ts, t.IsProper) :
    e.WellFormed := by
  induction h with
  | expression inner ih => exact ih hProper
  | assign hName hEquals inner ih =>
      exact ih fun t ht => hProper t (by simp [ht])
  | plain inner ih => exact ih hProper
  | operand inner ih => exact ih hProper
  | link first hOp hDepth second ihFirst ihSecond =>
      exact Chain.wellFormed_join hOp
        (ihFirst fun t ht => hProper t (by simp [ht]))
        (ihSecond fun t ht => hProper t (by simp [ht]))
  | unary hOp inner ih =>
      exact ⟨hOp, ih fun t ht => hProper t (by simp [ht])⟩
  | primary inner ih => exact ih hProper
  | @literal _ _ t hLiteral =>
      have hSpelled := (hProper t (by simp)).isSpelled
      exact hSpelled.exists_value_eq_ok
  | identifier hName => trivial
  | grouping hOpening inner hClosing ih =>
      exact ih fun t ht => hProper t (by simp [ht])

mutual

/- A statement of proper tokens is well-formed. -/
theorem Stmt.Derives.wellFormed
    {depth : Nat} {ts : List Token} {s : Stmt}
    (h : Stmt.Derives endings groups depth ts s)
    (hProper : ∀ t ∈ ts, t.IsProper) :
    s.WellFormed := by
  cases h with
  | expression inner hEnd =>
      rw [Stmt.WellFormed]
      exact inner.wellFormed
        fun t ht => hProper t (by simp [ht])
  | print hWord inner hEnd =>
      rw [Stmt.WellFormed]
      exact inner.wellFormed
        fun t ht => hProper t (by simp [ht])
  | block hOpening body hClosing hEnd =>
      rw [Stmt.WellFormed]
      exact Decl.DerivesAll.allWellFormed body
        fun t ht => hProper t (by simp [ht])
  | ifThen hWord hOpening test hClosing first =>
      rw [Stmt.WellFormed]
      exact ⟨test.wellFormed
          fun t ht => hProper t (by simp [ht]),
        Stmt.Derives.wellFormed first
          fun t ht => hProper t (by simp [ht])⟩
  | ifElse hWord hOpening test hClosing first hBody hSeparator
      second =>
      rw [Stmt.WellFormed]
      exact ⟨test.wellFormed
          fun t ht => hProper t (by simp [ht]),
        Stmt.Derives.wellFormed first
          fun t ht => hProper t (by simp [ht]),
        Stmt.Derives.wellFormed second
          fun t ht => hProper t (by simp [ht])⟩

/- A declaration of proper tokens is well-formed. -/
theorem Decl.Derives.wellFormed
    {depth : Nat} {ts : List Token} {d : Decl}
    (h : Decl.Derives endings groups depth ts d)
    (hProper : ∀ t ∈ ts, t.IsProper) :
    d.WellFormed := by
  cases h with
  | declare hWord hName hEnd =>
      rw [Decl.WellFormed]
      trivial
  | declareWith hWord hName hEquals inner hEnd =>
      rw [Decl.WellFormed]
      exact inner.wellFormed
        fun t ht => hProper t (by simp [ht])
  | statement inner =>
      rw [Decl.WellFormed]
      exact Stmt.Derives.wellFormed inner hProper

/- Declarations of proper tokens are well-formed. -/
theorem Decl.DerivesAll.allWellFormed
    {depth : Nat} {ts : List Token} {ds : List Decl}
    (h : Decl.DerivesAll endings groups depth ts ds)
    (hProper : ∀ t ∈ ts, t.IsProper) :
    Decl.AllWellFormed ds := by
  cases h with
  | nil =>
      rw [Decl.AllWellFormed]
      trivial
  | cons first more =>
      rw [Decl.AllWellFormed]
      exact ⟨Decl.Derives.wellFormed first
          fun t ht => hProper t (by simp [ht]),
        Decl.DerivesAll.allWellFormed more
          fun t ht => hProper t (by simp [ht])⟩

end

/- A declaration that is read off a source is well-formed. -/
theorem Decl.wellFormed_of_ofSource
    {limits : Limits}
    {source : String}
    {items : List (Except ParseError Decl)}
    {d : Decl}
    (hSource : Decl.ofSource limits source = .ok items)
    (hd : d ∈ Decl.declarationsOf items) :
    d.WellFormed := by
  rcases derives_of_ofSource hSource hd with
    ⟨ts, hProper, hDerives⟩
  exact hDerives.wellFormed hProper

end Lox
