import Lox.Proofs.Printing.Tokens
import Lox.Proofs.Scanning.Scans

/-
  The text of an expression is scanned as tokens from which
  the same expression is derived, apart from lines and from
  the blanks that blocks put into texts.

  Key definitions include:
    * `Token.reread`
    * `Expr.Rereads`

  Key theorems include:
    * `Token.IsProper.scans`
    * `Expr.Derives.scans`
-/

namespace Lox

variable {cs rest : List Char} {c : Char} {n : Nat}
variable {k : Kind} {l : Literal} {t : Token}
variable {level : Level} {depth groups : Nat}
variable {ts us : List Token} {e : Expr}

------------------------------------------------------------
-- Single Tokens
------------------------------------------------------------

/-
  What is read off a token inside of blocks, regardless of
  its line.
-/
def Token.reread
    (n : Nat)
    (t : Token) : Token :=
  (t.deepen n).unlined

/- One token that agrees with another inside of blocks. -/
def IsReread
    (n : Nat)
    (t : Token)
    (ts : List Token) : Prop :=
  ∃ u, ts = [u] ∧ u.kind = t.kind ∧ u.unlined = t.reread n

namespace Lexeme

/- A text that starts with a delimiter delimits. -/
theorem delimits_cons
    (h : isDelimiter c = true)
    (rest : List Char) :
    Delimits (c :: rest) := by
  rintro d ⟨⟩
  exact h

/- Equality signs and line feeds start no other tokens. -/
theorem Spells.first_of_not_equal
    {more : List Char}
    (h : Spells (c :: more) k l)
    (hBlank : k.isTrivia = false)
    (hEqual : k ≠ .equal)
    (hEqualEqual : k ≠ .equalEqual) :
    c ≠ '=' ∧ c ≠ '\n' := by
  constructor
  · rintro rfl
    generalize hChars : '=' :: more = cs at h
    cases h with
    | blank hFirst => cases hBlank
    | slash => cases hChars
    | comment => cases hBlank
    | single hSingle =>
        cases hChars
        cases hSingle
    | alone hPaired =>
        cases hChars
        cases hPaired
        exact hEqual rfl
    | withEqual hPaired =>
        cases hChars
        cases hPaired
        exact hEqualEqual rfl
    | text hBody => cases hChars
    | number hFirst hMore hNumber =>
        cases hChars
        cases hFirst
    | word hFirst hMore =>
        cases hChars
        cases hFirst
  · rintro rfl
    rcases h.text_or_not_mem hBlank with
      ⟨body, -, hChars, -, -⟩ | ⟨hLine, -⟩
    · cases hChars
    · exact hLine List.mem_cons_self

/- A prefix operator is parted from what is no equality sign. -/
theorem Spells.parts_of_isPrefixOperator
    (h : Spells cs k l)
    (hOp : k.isPrefixOperator = true)
    (hRest : ∀ d ∈ rest.head?, d ≠ '=') :
    Parts cs rest := by
  cases h with
  | blank hFirst => cases hOp
  | slash => cases hOp
  | comment => cases hOp
  | single hSingle =>
      intro d more hChars
      cases hChars
      exact following_of_single? hSingle _
  | alone hPaired => exact parts_of_paired? hPaired hRest
  | withEqual hPaired => exact parts_withEqual hPaired rest
  | text hBody => cases hOp
  | number hFirst hMore hNumber => cases hOp
  | @word c more hFirst hMore =>
      have hNone :
          ∀ k ∈ Kind.identifier :: Kind.reserved.map Prod.snd,
            k.isPrefixOperator = false := by
        decide
      rw [hNone _ (Kind.ofWord_mem _)] at hOp
      cases hOp

end Lexeme

/- A proper token is scanned as itself inside of blocks. -/
theorem Token.IsProper.scans
    (h : t.IsProper)
    (n : Nat)
    (hParts :
      Lexeme.Parts (shifted n t.lexeme.toList) rest) :
    Scans (shifted n t.lexeme.toList) rest
      (IsReread n t) := by
  have hSpells := h.isSpelled.deepen h.isTrivia_eq_false n
  apply (hSpells.scans h.isTrivia_eq_false hParts).mono
  rintro us ⟨line, rfl⟩
  exact ⟨_, rfl, rfl, rfl⟩

/- A proper token is scanned in front of a delimiter. -/
theorem Token.IsProper.scans_of_delimits
    (h : t.IsProper)
    (n : Nat)
    (hRest : Lexeme.Delimits rest) :
    Scans (shifted n t.lexeme.toList) rest
      (IsReread n t) := by
  have hSpells := h.isSpelled.deepen h.isTrivia_eq_false n
  have hKind : t.kind ≠ .comment := by
    intro hComment
    have hTrivia := h.isTrivia_eq_false
    rw [hComment] at hTrivia
    cases hTrivia
  exact h.scans n (hSpells.parts_of_delimits hKind hRest)

/- A character that cannot be continued is scanned alone. -/
theorem scans_single
    (h : Lexeme.single? c = some k)
    (hKind : k.isTrivia = false) :
    Scans [c] rest (IsOne k) := by
  have hParts : Lexeme.Parts [c] rest := by
    intro d more hChars
    cases hChars
    exact Lexeme.following_of_single? h _
  apply ((Lexeme.Spells.single h).scans hKind hParts).mono
  rintro us ⟨line, rfl⟩
  exact ⟨_, rfl, rfl⟩

/- An equality sign in front of a blank is scanned alone. -/
theorem scans_equal :
    Scans ['='] (' ' :: rest) (IsOne .equal) := by
  have hParts : Lexeme.Parts ['='] (' ' :: rest) :=
    Lexeme.parts_of_paired? rfl (by rintro d ⟨⟩; decide)
  apply ((Lexeme.Spells.alone rfl).scans rfl hParts).mono
  rintro us ⟨line, rfl⟩
  exact ⟨_, rfl, rfl⟩

------------------------------------------------------------
-- Starts of Expressions
------------------------------------------------------------

/-
  Characters that go on with no operator and hold no line
  feed at their start.
-/
def StartsFreely
    (cs : List Char) : Prop :=
  ∃ c more, cs = c :: more ∧ c ≠ '=' ∧ c ≠ '\n'

/- A token that starts an expression starts freely. -/
theorem Token.IsProper.startsFreely
    (h : t.IsProper)
    (hStarts : t.kind.startsExpr = true) :
    StartsFreely t.lexeme.toList := by
  have hSpelled := h.isSpelled
  unfold IsSpelled at hSpelled
  have hKind :
      ∀ k : Kind, k.startsExpr = false → t.kind ≠ k := by
    intro k hk hKind
    rw [hKind, hk] at hStarts
    cases hStarts
  cases hChars : t.lexeme.toList with
  | nil =>
      rw [hChars] at hSpelled
      cases hSpelled
  | cons c more =>
      rw [hChars] at hSpelled
      rcases
          hSpelled.first_of_not_equal h.isTrivia_eq_false
            (hKind .equal rfl) (hKind .equalEqual rfl) with
        ⟨hEqual, hLine⟩
      exact ⟨c, more, rfl, hEqual, hLine⟩

/- More text does not change how a text starts. -/
theorem StartsFreely.append
    (h : StartsFreely cs)
    (rest : List Char) :
    StartsFreely (cs ++ rest) := by
  rcases h with ⟨c, more, rfl, hEqual, hLine⟩
  exact ⟨c, more ++ rest, rfl, hEqual, hLine⟩

/- A text that starts freely does so inside of blocks. -/
theorem StartsFreely.shifted
    (h : StartsFreely cs)
    (n : Nat) :
    StartsFreely (shifted n cs) := by
  rcases h with ⟨c, more, rfl, hEqual, hLine⟩
  exact ⟨c, _, shifted_cons hLine n more, hEqual, hLine⟩

/- The text of a join is that of its parts. -/
theorem Chain.chars_join
    (c : Chain)
    (left right : Expr)
    (op : Token) :
    (c.join left op right).chars =
      left.chars ++ ' ' ::
        (op.lexeme.toList ++ ' ' :: right.chars) := by
  cases c
  all_goals simp [join, Expr.chars]

/- The text of an expression starts freely. -/
theorem Expr.Derives.startsFreely
    (h : Derives level depth groups ts e)
    (hProper : ∀ t ∈ ts, t.IsProper) :
    StartsFreely e.chars := by
  induction h with
  | expression inner ih => exact ih hProper
  | assign hName hEquals inner ih =>
      have hStart :=
        (hProper _ List.mem_cons_self).startsFreely
          (by simp [Kind.startsExpr, hName])
      exact (hStart.append _).append _
  | plain inner ih => exact ih hProper
  | operand inner ih => exact ih hProper
  | link first hOp hDepth second ihFirst ihSecond =>
      rw [Chain.chars_join]
      exact (ihFirst fun t ht =>
        hProper t (by simp [ht])).append _
  | unary hOp inner ih =>
      have hStart :=
        (hProper _ List.mem_cons_self).startsFreely
          (by simp [Kind.startsExpr, hOp])
      exact hStart.append _
  | primary inner ih => exact ih hProper
  | literal hLiteral =>
      exact (hProper _ List.mem_cons_self).startsFreely
        (by simp [Kind.startsExpr, hLiteral])
  | identifier hName =>
      exact (hProper _ List.mem_cons_self).startsFreely
        (by simp [Kind.startsExpr, hName])
  | grouping hOpening inner hClosing ih =>
      exact ⟨'(', _, rfl, by decide, by decide⟩

------------------------------------------------------------
-- Expressions
------------------------------------------------------------

/-
  Tokens from which an expression is derived that agrees
  with another inside of blocks.
-/
def Expr.Rereads
    (level : Level)
    (depth groups n : Nat)
    (e : Expr)
    (ts : List Token) : Prop :=
  ∃ e', Derives level depth groups ts e' ∧
    e'.mapTokens Token.unlined = e.mapTokens (Token.reread n)

/- Agreeing does not depend on how a tree is derived. -/
theorem Expr.Rereads.mono
    {level' : Level}
    {depth' : Nat}
    (h : e.Rereads level depth groups n ts)
    (hWeak :
      ∀ {e'}, Derives level depth groups ts e' →
        Derives level' depth' groups ts e') :
    e.Rereads level' depth' groups n ts := by
  rcases h with ⟨e', hDerives, hMap⟩
  exact ⟨e', hWeak hDerives, hMap⟩

/- Expressions that agree have as many operators. -/
theorem Expr.links_eq_of_mapTokens_eq
    {e' : Expr}
    (h :
      e'.mapTokens Token.unlined =
        e.mapTokens (Token.reread n))
    (c : Chain) :
    e'.links c = e.links c := by
  rw [← links_mapTokens (f := Token.unlined) (fun _ => rfl),
    ← links_mapTokens (f := Token.reread n) (fun _ => rfl)
      c e, h]

/-
  The text of an expression, in front of a delimiter, is
  scanned as tokens from which the expression is derived.
-/
theorem Expr.Derives.scans
    (h : Derives level depth groups ts e)
    (hProper : ∀ t ∈ ts, t.IsProper)
    (n : Nat)
    (hRest : Lexeme.Delimits rest) :
    Scans (shifted n e.chars) rest
      (e.Rereads level depth groups n) := by
  induction h generalizing rest with
  | expression inner ih =>
      apply (ih hProper hRest).mono
      intro us hRereads
      exact hRereads.mono .expression
  | @assign _ _ _ name equals value hName hEquals inner ih =>
      have hSign :
          shifted n [' ', '=', ' '] = [' ', '=', ' '] :=
        shifted_of_not_mem (by decide) n
      rw [chars, shifted_append, shifted_append, hSign,
        List.append_assoc]
      apply ((hProper name (by simp)).scans_of_delimits n
        (Lexeme.delimits_cons rfl _)).append
      rintro _ ⟨name', rfl, hKind, hNameMap⟩
      apply Scans.blank rfl
      apply Scans.cons scans_equal
      rintro _ ⟨equals', rfl, hEquals'⟩
      apply Scans.blank rfl
      apply (ih (fun t ht => hProper t (by simp [ht]))
        hRest).mono
      rintro us ⟨value', hDerives, hMap⟩
      refine ⟨.assign name' value', ?_, ?_⟩
      · refine .assign ?_ hEquals' hDerives
        rw [hKind]
        exact hName
      · rw [mapTokens, mapTokens, hNameMap, hMap]
  | plain inner ih =>
      apply (ih hProper hRest).mono
      intro us hRereads
      exact hRereads.mono .plain
  | operand inner ih =>
      apply (ih hProper hRest).mono
      intro us hRereads
      exact hRereads.mono .operand
  | @link _ _ _ ts vs c op left right first hOp hDepth second
      ihFirst ihSecond =>
      rw [Chain.chars_join, shifted_append,
        shifted_cons (by decide), shifted_append,
        shifted_cons (by decide)]
      apply (ihFirst (fun t ht => hProper t (by simp [ht]))
        (Lexeme.delimits_cons rfl _)).append
      rintro us ⟨left', hLeft, hLeftMap⟩
      apply Scans.blank rfl
      apply ((hProper op (by simp)).scans_of_delimits n
        (Lexeme.delimits_cons rfl _)).append
      rintro _ ⟨op', rfl, hOpKind, hOpMap⟩
      apply Scans.blank rfl
      apply (ihSecond (fun t ht => hProper t (by simp [ht]))
        hRest).mono
      rintro ws ⟨right', hRight, hRightMap⟩
      refine ⟨c.join left' op' right', ?_, ?_⟩
      · refine .link hLeft ?_ ?_ hRight
        · rw [hOpKind]
          exact hOp
        · rw [links_eq_of_mapTokens_eq hLeftMap]
          exact hDepth
      · rw [Chain.mapTokens_join, Chain.mapTokens_join,
          hLeftMap, hOpMap, hRightMap]
  | @unary _ _ ts e op hOp inner ih =>
      have hOpProper := hProper op (by simp)
      have hInner : ∀ t ∈ ts, t.IsProper :=
        fun t ht => hProper t (List.mem_cons_of_mem _ ht)
      have hParts :
          Lexeme.Parts (shifted n op.lexeme.toList)
            (shifted n e.chars ++ rest) := by
        have hSpells := hOpProper.isSpelled.deepen
          hOpProper.isTrivia_eq_false n
        apply hSpells.parts_of_isPrefixOperator hOp
        rcases (inner.startsFreely hInner).shifted n with
          ⟨d, more, hChars, hEqual, -⟩
        rw [hChars]
        rintro _ ⟨⟩
        exact hEqual
      rw [chars, shifted_append]
      apply (hOpProper.scans n hParts).append
      rintro _ ⟨op', rfl, hKind, hOpMap⟩
      apply (ih hInner hRest).mono
      rintro us ⟨e', hDerives, hMap⟩
      refine ⟨.unary op' e', ?_, ?_⟩
      · refine .unary ?_ hDerives
        rw [hKind]
        exact hOp
      · rw [mapTokens, mapTokens, hOpMap, hMap]
  | primary inner ih =>
      apply (ih hProper hRest).mono
      intro us hRereads
      exact hRereads.mono .primary
  | @literal _ _ t hLiteral =>
      apply ((hProper t (by simp)).scans_of_delimits n
        hRest).mono
      rintro _ ⟨u, rfl, hKind, hMap⟩
      refine ⟨.literal u, .literal ?_, ?_⟩
      · rw [hKind]
        exact hLiteral
      · rw [mapTokens, mapTokens, hMap]
  | @identifier _ _ t hName =>
      apply ((hProper t (by simp)).scans_of_delimits n
        hRest).mono
      rintro _ ⟨u, rfl, hKind, hMap⟩
      refine ⟨.identifier u, .identifier ?_, ?_⟩
      · rw [hKind]
        exact hName
      · rw [mapTokens, mapTokens, hMap]
  | @grouping _ _ _ e opening closing hOpening inner hClosing
      ih =>
      have hClose : shifted n [')'] = [')'] :=
        shifted_of_not_mem (by decide) n
      rw [chars, List.cons_append, shifted_cons (by decide),
        shifted_append, hClose]
      apply Scans.cons (scans_single rfl rfl)
      rintro _ ⟨opening', rfl, hOpening'⟩
      apply (ih (fun t ht => hProper t (by simp [ht]))
        (Lexeme.delimits_cons rfl _)).append
      rintro us ⟨e', hDerives, hMap⟩
      apply (scans_single rfl rfl).mono
      rintro _ ⟨closing', rfl, hClosing'⟩
      refine ⟨.grouping e', ?_, ?_⟩
      · exact .grouping hOpening' hDerives hClosing'
      · rw [mapTokens, mapTokens, hMap]

end Lox
