import Lox.Proofs.Evaluation.Scopes
import Lox.Proofs.Reading.Progress
import Lox.Proofs.Scanning.Number
import Lox.Session

/-
  Integral numbers survive being printed and read back.

  The text of a double that stands for an integer is this
  integer in full.  It is scanned as the exact integer, after
  a minus sign if it is negative, and the integer is rounded
  to the double it was printed from.  Only the sign of a zero
  is lost.

  Key theorems include:
    * `Double.units_of_rational?`
    * `Double.ofRatio?_natAbs`
    * `Value.render_of_rational?`
    * `Session.run_ofList`
    * `Session.run_render`
-/

namespace Lox

variable {x y : Float} {k : ℤ} {n : Nat}

------------------------------------------------------------
-- Integral Doubles
------------------------------------------------------------

namespace Double

open Float.Model.UnpackedFloat

/- An integral double is a multiple of one. -/
theorem apply_units_of_rational?
    (h : rational? x = some (k : ℚ)) :
    (sign x).apply (units (pattern x)) = k * one := by
  have hOne : (one : ℚ) ≠ 0 :=
    Nat.cast_ne_zero.mpr one_pos.ne'
  rw [rational?_eq_some (pattern_lt_of_rational? h),
    Option.some.injEq, div_eq_iff hOne] at h
  exact_mod_cast h

/- Its units are those of its absolute value. -/
theorem units_of_rational?
    (h : rational? x = some (k : ℚ)) :
    units (pattern x) = k.natAbs * one := by
  have hScaled := apply_units_of_rational? h
  have hAbs : k.natAbs * one = (k * one).natAbs := by
    rw [Int.natAbs_mul, Int.natAbs_natCast]
  rw [hAbs, ← hScaled]
  cases sign x
  · change _ = (-(units (pattern x) : ℤ)).natAbs
    rw [Int.natAbs_neg, Int.natAbs_natCast]
  · exact (Int.natAbs_natCast _).symm

/- Its sign is negative if the integer is. -/
theorem sign_of_neg
    (h : rational? x = some (k : ℚ))
    (hk : k < 0) :
    sign x = .negative := by
  have hScaled := apply_units_of_rational? h
  have hLess : k * one < 0 :=
    Int.mul_neg_of_neg_of_pos hk
      (Int.natCast_pos.mpr one_pos)
  cases hSign : sign x with
  | negative => rfl
  | positive =>
      rw [hSign] at hScaled
      change (units (pattern x) : ℤ) = _ at hScaled
      omega

/- Its sign is positive if the integer is. -/
theorem sign_of_pos
    (h : rational? x = some (k : ℚ))
    (hk : 0 < k) :
    sign x = .positive := by
  have hScaled := apply_units_of_rational? h
  have hLess : 0 < k * one :=
    Int.mul_pos hk (Int.natCast_pos.mpr one_pos)
  cases hSign : sign x with
  | negative =>
      rw [hSign] at hScaled
      change -(units (pattern x) : ℤ) = _ at hScaled
      omega
  | positive => rfl

/- The zeros have no bits but their sign. -/
theorem pattern_of_zero
    (h : rational? x = some ((0 : ℤ) : ℚ)) :
    pattern x = 0 := by
  apply units_injective
  rw [units_of_rational? h, Int.natAbs_zero, Nat.zero_mul]
  rfl

/- Its absolute value is a whole number. -/
theorem wholePart?_of_rational?
    (h : rational? x = some (k : ℚ)) :
    wholePart? x = some k.natAbs := by
  have hUnits := units_of_rational? h
  unfold wholePart?
  rw [if_pos, hUnits, Nat.mul_div_cancel _ one_pos]
  rw [hUnits]
  exact ⟨pattern_lt_of_rational? h, Nat.mul_mod_left _ _⟩

/- Its absolute value is rounded to its pattern. -/
theorem nearest_natAbs
    (h : rational? x = some (k : ℚ)) :
    nearest k.natAbs 1 = pattern x := by
  apply nearest_eq_of_units Nat.one_pos
  rw [units_of_rational? h, Nat.mul_one]

/- So it is rounded to the double with a positive sign. -/
theorem ofRatio?_natAbs
    (h : rational? x = some (k : ℚ)) :
    ofRatio? k.natAbs 1 =
      some (ofPattern .positive (pattern x)) := by
  have hFinite := pattern_lt_of_rational? h
  rw [← nearest_natAbs h] at hFinite ⊢
  exact ofRatio?_eq_some hFinite

end Double

------------------------------------------------------------
-- Texts of Integers
------------------------------------------------------------

/- The text of an integral double is the integer in full. -/
theorem Value.render_of_rational?
    (h : Double.rational? x = some (k : ℚ)) :
    (Value.number x).render = toString k := by
  change numberText x = _
  unfold numberText
  rw [Double.wholePart?_of_rational? h]
  dsimp only
  cases k with
  | ofNat n =>
      rw [if_neg]
      · rfl
      · rintro ⟨hNegative, hn⟩
        have hPos : 0 < Int.ofNat n :=
          Int.natCast_pos.mpr (Nat.pos_of_ne_zero hn)
        have hSign := Double.isNegative_iff.mp hNegative
        rw [Double.sign_of_pos h hPos] at hSign
        cases hSign
  | negSucc n =>
      have hSign := Double.sign_of_neg h (by omega)
      rw [if_pos]
      · rfl
      · exact ⟨Double.isNegative_iff.mpr hSign, by omega⟩

/- The characters of a natural number are its digits. -/
theorem toList_toString_ofNat
    (n : Nat) :
    (toString (Int.ofNat n)).toList = Nat.toDigits 10 n :=
  Nat.toList_repr

/- Those of a negative one have a minus in front. -/
theorem toList_toString_negSucc
    (n : Nat) :
    (toString (Int.negSucc n)).toList =
      '-' :: Nat.toDigits 10 (n + 1) := by
  change ("-" ++ (n + 1).repr).toList = _
  rw [String.toList_append, Nat.toList_repr]
  rfl

------------------------------------------------------------
-- Scanning Integers
------------------------------------------------------------

/- A natural number that can be rounded has few digits. -/
theorem length_toDigits_le
    (h : Double.ofRatio? n 1 = some y) :
    (Nat.toDigits 10 n).length ≤ 4300 := by
  have hPower {e f : Nat} (hLess : e ≤ f) :
      2 ^ e ≤ 10 ^ f :=
    (Nat.pow_le_pow_left (by decide) e).trans
      (Nat.pow_le_pow_right (by decide) hLess)
  have hBound :=
    (Double.nearest_lt_infinite_iff Nat.one_pos).mp
      (Double.nearest_lt_of_ofRatio? h)
  rw [Nat.mul_one] at hBound
  rw [Nat.length_toDigits_le_iff (by decide) (by decide)]
  calc
    n < 2 ^ 1024 - 2 ^ 970 := hBound
    _ ≤ 2 ^ 1024 := Nat.sub_le _ _
    _ ≤ 10 ^ 4300 := hPower (by omega)

/- A natural number that can be rounded is one token. -/
theorem scans_toDigits
    (h : Double.ofRatio? n 1 = some y) :
    Scans (Nat.toDigits 10 n) [] fun us =>
      ∃ line,
        us =
          [⟨.number, String.ofList (Nat.toDigits 10 n),
            .integer n, line⟩] := by
  have hDigits :
      ∀ c ∈ Nat.toDigits 10 n, c.isDigit = true :=
    fun c hc =>
      Nat.isDigit_of_mem_toDigits (by decide) (by decide) hc
  have hRun :
      ∀ c ∈ Nat.toDigits 10 n, Lexeme.inNumber c = true := by
    intro c hc
    simp [Lexeme.inNumber, hDigits c hc]
  have hPoint : '.' ∉ Nat.toDigits 10 n :=
    fun hMem => absurd (hDigits _ hMem) (by decide)
  have hNumber :
      Lexeme.number? (Nat.toDigits 10 n) =
        some (.integer n) := by
    rw [Lexeme.number?_of_notMem (length_toDigits_le h) hPoint,
      Lexeme.digitsValue_of_notMem hRun hPoint,
      Nat.ofDigitChars_ten_toDigits, h]
    rfl
  have hSpells :
      Lexeme.Spells (Nat.toDigits 10 n) .number
        (.integer n) := by
    cases hChars : Nat.toDigits 10 n with
    | nil => exact absurd hChars Nat.toDigits_ne_nil
    | cons c more =>
        rw [hChars] at hDigits hRun hNumber
        exact .number (hDigits c List.mem_cons_self)
          (fun d hd => hRun d (List.mem_cons_of_mem c hd))
          hNumber
  exact hSpells.scans rfl
    (hSpells.parts_of_delimits (by decide) nofun)

/- A minus sign in front of it is a token of its own. -/
theorem scans_minus_toDigits
    (h : Double.ofRatio? n 1 = some y) :
    Scans ('-' :: Nat.toDigits 10 n) [] fun us =>
      ∃ before line,
        us =
          [⟨.minus, "-", .absent, before⟩,
            ⟨.number, String.ofList (Nat.toDigits 10 n),
              .integer n, line⟩] := by
  have hMinus : Lexeme.Spells ['-'] .minus .absent :=
    .single rfl
  have hParts :
      Lexeme.Parts ['-'] (Nat.toDigits 10 n ++ []) := by
    intro c more hChars
    cases hChars
    exact Lexeme.following_of_single? (by rfl) _
  apply Scans.cons (hMinus.scans rfl hParts)
  rintro us ⟨before, rfl⟩
  apply (scans_toDigits h).mono
  rintro us ⟨line, rfl⟩
  exact ⟨before, line, rfl⟩

------------------------------------------------------------
-- Running Expressions
------------------------------------------------------------

/-
  Whether tokens are read as one declaration, and this runs
  to a value in a session without a change of it.
-/
def Session.Yields
    (s : Session)
    (v : Value)
    (us : List Token) : Prop :=
  ∃ d,
    Decl.ReadsAll Limits.standard.groupRoom
        Limits.standard.depthRoom us none [d] ∧
      d.evaluate standardLimit ⟨s.env, []⟩ =
        .ok v ⟨s.env, []⟩

/- A source of such tokens yields the value, and no error. -/
theorem Session.run_ofList
    {s : Session}
    {v : Value}
    {cs : List Char}
    (h : Scans cs [] (s.Yields v)) :
    ∃ d,
      s.run (String.ofList cs) =
        (s, ⟨[], [(d, v)], none⟩) := by
  rcases Decl.ofSource_ofList h .standard with
    ⟨line, ts, ⟨d, hReads, hValue⟩, hSource⟩
  have hProgram :
      Decl.parseAll ⟨.standard, line⟩ ts = [d].map .ok :=
    Decl.parseAll_eq_map_ok.mpr hReads
  refine ⟨d, ?_⟩
  unfold run
  rw [hSource, hProgram, List.map_singleton]
  dsimp only
  rw [runAll, hValue]
  rfl

/- An expression at the end of a source is read as one. -/
theorem Expr.readsAll_of_derives
    {e : Expr}
    {ts : List Token}
    (h : Expr.Derives .expression 127 32 ts e) :
    Decl.ReadsAll Limits.standard.groupRoom
      Limits.standard.depthRoom ts none
      [.statement (.expression e)] := by
  have hStatement :
      Stmt.Reads 32 128 (ts ++ []) none (.expression e) :=
    .expression h (.inr ⟨rfl, nofun⟩)
  rw [List.append_nil] at hStatement
  have hAll :
      Decl.ReadsAll 32 128 (ts ++ []) none
        [.statement (.expression e)] :=
    .cons (.statement hStatement) .nil
  rw [List.append_nil] at hAll
  exact hAll

/- What needs an operator at most is an expression. -/
theorem Expr.Derives.expression_of_unary
    {e : Expr}
    {depth groups : Nat}
    {ts : List Token}
    (h : Expr.Derives .unary depth groups ts e) :
    Expr.Derives .expression (depth + 1) groups ts e :=
  .expression (.plain (.operand (.operand (.operand
    (.operand (.operand (.operand h)))))))

/- An expression is run one level below its statement. -/
theorem Decl.evaluate_expression
    (e : Expr) :
    (Decl.statement (.expression e)).evaluate standardLimit =
      e.eval standardLimit 199 := by
  unfold Decl.evaluate
  rw [show standardLimit.toNat = 199 + 1 from rfl, Decl.exec,
    Stmt.exec]

/- A number has its value on every level. -/
theorem Expr.eval_number
    {t : Token}
    (hValue : t.literal.value = .ok (.number y))
    (limit : Int)
    (room : Nat)
    (m : Machine) :
    (Expr.literal t).eval limit (room + 1) m =
      .ok (.number y) m := by
  rw [Expr.eval, hValue]
  rfl

/- A number needs no operator. -/
theorem Expr.derives_number
    {t : Token}
    {depth groups : Nat}
    (hKind : t.kind = .number) :
    Expr.Derives .unary depth groups [t] (.literal t) := by
  have hLiteral : t.kind.isLiteral = true := by
    rw [hKind]
    rfl
  exact .primary (.literal hLiteral)

/- A number is read and yields its value. -/
theorem Session.yields_number
    {t : Token}
    (s : Session)
    (hKind : t.kind = .number)
    (hValue : t.literal.value = .ok (.number y)) :
    s.Yields (.number y) [t] := by
  refine ⟨_, Expr.readsAll_of_derives
    (.expression_of_unary (Expr.derives_number hKind)), ?_⟩
  rw [Decl.evaluate_expression]
  exact Expr.eval_number hValue _ _ _

/- Negated, it yields the negative of its value. -/
theorem Session.yields_neg_number
    {op t : Token}
    (s : Session)
    (hOp : op.kind = .minus)
    (hKind : t.kind = .number)
    (hValue : t.literal.value = .ok (.number y)) :
    s.Yields (.number (-y)) [op, t] := by
  have hPrefix : op.kind.isPrefixOperator = true := by
    rw [hOp]
    rfl
  refine ⟨_, Expr.readsAll_of_derives
    (.expression_of_unary
      (.unary hPrefix (Expr.derives_number hKind))), ?_⟩
  rw [Decl.evaluate_expression, Expr.eval, Eval.bind_apply,
    Expr.eval_number hValue]
  dsimp only
  unfold Expr.applyUnary
  rw [hOp]
  rfl

------------------------------------------------------------
-- Reading Integers Back
------------------------------------------------------------

/-
  The double that an integral double is read back as: the
  same one, but for the sign of a zero.
-/
theorem Double.exists_readBack
    (h : rational? x = some (k : ℚ)) :
    ∃ y,
      ofRatio? k.natAbs 1 = some y ∧
        (if k < 0 then -y else y) =
          if k = 0 then Float.ofBits 0 else x := by
  have hFinite := pattern_lt_of_rational? h
  refine ⟨_, ofRatio?_natAbs h, ?_⟩
  rcases Int.lt_trichotomy k 0 with hNeg | rfl | hPos
  · rw [if_pos hNeg, if_neg hNeg.ne,
      neg_eq_ofPattern, sign_ofPattern _ hFinite,
      pattern_ofPattern _ hFinite]
    · change ofPattern .negative (pattern x) = x
      rw [← sign_of_neg h hNeg]
      exact ofPattern_sign_pattern hFinite
    · rw [pattern_ofPattern _ hFinite]
      exact hFinite
  · rw [pattern_of_zero h, if_neg (by omega), if_pos rfl]
    exact (ofBits_ofNat 0).symm
  · rw [if_neg (by omega), if_neg hPos.ne',
      ← sign_of_pos h hPos]
    exact ofPattern_sign_pattern hFinite

/- As numbers, they are equal. -/
theorem Double.readBack_beq
    (h : rational? x = some (k : ℚ)) :
    ((if k = 0 then Float.ofBits 0 else x) == x) = true := by
  have hFinite := pattern_lt_of_rational? h
  by_cases hk : k = 0
  · subst hk
    have hZero := pattern_of_zero h
    have hBits : Float.ofBits 0 = ofPattern .positive 0 :=
      ofBits_ofNat 0
    have hPattern :
        pattern (ofPattern .positive 0) = pattern x := by
      rw [hZero] at hFinite ⊢
      exact pattern_ofPattern _ hFinite
    rw [if_pos rfl, hBits]
    exact beq_of_pattern_eq hFinite hPattern (.inr hZero)
  · rw [if_neg hk]
    exact beq_of_pattern_eq hFinite rfl (.inl rfl)

/- The text of an integer yields the double it is rounded to. -/
theorem scans_toString
    (s : Session)
    (h : Double.ofRatio? k.natAbs 1 = some y) :
    Scans (toString k).toList []
      (s.Yields (.number (if k < 0 then -y else y))) := by
  cases k with
  | ofNat n =>
      have hSign : ¬ Int.ofNat n < 0 :=
        (Int.natCast_nonneg n).not_gt
      rw [toList_toString_ofNat, if_neg hSign]
      apply (scans_toDigits h).mono
      rintro us ⟨line, rfl⟩
      exact s.yields_number rfl (Literal.value_natCast h)
  | negSucc n =>
      rw [toList_toString_negSucc, if_pos (by omega)]
      apply (scans_minus_toDigits h).mono
      rintro us ⟨before, line, rfl⟩
      exact s.yields_neg_number rfl rfl
        (Literal.value_natCast h)

/-
  A double that stands for an integer is printed as a source
  that runs in a fresh session without an error, and yields
  one value: a number equal to the double, and the double
  itself if it is not zero.
-/
theorem Session.run_render
    (h : Double.rational? x = some (k : ℚ)) :
    ∃ d y,
      fresh.run (Value.number x).render =
          (fresh, ⟨[], [(d, .number y)], none⟩) ∧
        (Value.number y).equals (.number x) = true ∧
        y = if k = 0 then Float.ofBits 0 else x := by
  rcases Double.exists_readBack h with ⟨y, hy, hBack⟩
  rcases run_ofList (scans_toString fresh hy) with ⟨d, hRun⟩
  rw [String.ofList_toList, ← Value.render_of_rational? h,
    hBack] at hRun
  exact ⟨d, _, hRun, Double.readBack_beq h, rfl⟩

/- So it is with `-2^60`, of which 19 digits are printed. -/
theorem Session.run_render_power :
    (Value.number (Float.ofBits 0xc3b0000000000000)).render =
        "-1152921504606846976" ∧
      ∃ d,
        fresh.run "-1152921504606846976" =
          (fresh,
            ⟨[],
              [(d,
                .number (Float.ofBits 0xc3b0000000000000))],
              none⟩) := by
  have hPower :
      Double.rational? (Float.ofBits 0xc3b0000000000000) =
        some ((-2 ^ 60 : ℤ) : ℚ) := by
    decide +kernel
  have hNonzero : ¬ (-2 ^ 60 : ℤ) = 0 := by decide
  have hText :
      toString (-2 ^ 60 : ℤ) = "-1152921504606846976" := by
    decide +kernel
  have hRender := Value.render_of_rational? hPower
  rw [hText] at hRender
  obtain ⟨d, y, hRun, -, hBack⟩ := run_render hPower
  rw [if_neg hNonzero] at hBack
  rw [hRender, hBack] at hRun
  exact ⟨hRender, d, hRun⟩

end Lox
