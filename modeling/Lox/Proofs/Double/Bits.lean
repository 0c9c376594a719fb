import Lox.Proofs.Double.Rounding
import Mathlib

/-
  The bits of doubles.

  The logic's own account of doubles unpacks the bits of one
  to a sign, a significand and an exponent.  For a finite
  double these are its sign, and the significand and shift
  of its pattern.  So a finite double is told by its sign and
  pattern, and stands for the units of its pattern.

  Key definitions include:
    * `Double.unpacked`
    * `Double.sign`
    * `Double.ofPattern`
    * `Double.rational?`

  Key theorems include:
    * `Double.unpack_eq_unpacked`
    * `Double.ofPattern_sign_pattern`
    * `Double.isFinite_iff`
    * `Double.neg_eq_ofPattern`
    * `Double.beq_of_pattern_eq`
    * `Double.rational?_eq_some`
    * `Double.exists_ofRatio?_iff`
-/

namespace Lox

namespace Double

open Float.Model (Format UnpackedFloat)
open Float.Model.UnpackedFloat

variable {x y : Float} {p : Nat} {v : BitVec 64}

------------------------------------------------------------
-- Fields
------------------------------------------------------------

/- The significand field is the last 52 bits. -/
theorem toNat_unpackMantissa
    (v : BitVec 64) :
    (@unpackMantissa Format.binary64 v).toNat =
      v.toNat % 2 ^ 52 := by
  rw [unpackMantissa_def, BitVec.extractLsb'_toNat]
  rfl

/- The exponent field is the 11 bits in front of them. -/
theorem toNat_unpackExponent
    (v : BitVec 64) :
    (@unpackExponent Format.binary64 v).toNat =
      v.toNat / 2 ^ 52 % 2 ^ 11 := by
  rw [unpackExponent_def, BitVec.extractLsb'_toNat,
    Nat.shiftRight_eq_div_pow]

/- The first bit is the sign. -/
theorem toNat_unpackSign
    (v : BitVec 64) :
    (@unpackSign Format.binary64 v).toNat =
      v.toNat / 2 ^ 63 := by
  have hBits : v.toNat < 2 ^ 64 := v.isLt
  rw [unpackSign_def, BitVec.extractLsb'_toNat,
    Nat.shiftRight_eq_div_pow]
  change v.toNat / 2 ^ 63 % 2 ^ 1 = _
  omega

/- A leading bit in front of the significand field. -/
theorem toNat_one_append
    (m : BitVec 52) :
    (1#1 ++ m).toNat = 2 ^ 52 + m.toNat := by
  rw [BitVec.toNat_append,
    ← Nat.shiftLeft_add_eq_or_of_lt m.isLt]
  rfl

/- The patterns that are not finite have the last exponent. -/
theorem unpackExponent_eq_iff :
    @unpackExponent Format.binary64 v = -1#_ ↔
      infinite ≤ v.toNat % 2 ^ 63 := by
  rw [← BitVec.toNat_inj, toNat_unpackExponent, infinite_eq]
  change _ = 2047 ↔ _
  omega

------------------------------------------------------------
-- Unpacking
------------------------------------------------------------

/- The shift of a pattern, as a difference. -/
theorem shift_eq
    (p : Nat) :
    shift p = p / 2 ^ 52 - 1 := by
  unfold shift
  rw [Nat.pow_eq]

/- What a sign and a finite pattern are unpacked to. -/
def unpacked
    (s : Sign)
    (p : Nat) : UnpackedFloat :=
  if h : 0 < significand p then
    .finite s (significand p) (shift p - 1074) h
  else .zero s

/- A pattern with a significand is a number but zero. -/
theorem unpacked_of_pos
    {s : Sign}
    (h : 0 < significand p) :
    unpacked s p =
      .finite s (significand p) (shift p - 1074) h := by
  unfold unpacked
  rw [dif_pos h]

/- A pattern without a significand is a zero. -/
theorem unpacked_of_not_pos
    {s : Sign}
    (h : ¬ 0 < significand p) :
    unpacked s p = .zero s := by
  unfold unpacked
  rw [dif_neg h]

/- Negation changes the sign. -/
theorem neg_unpacked
    (s : Sign)
    (p : Nat) :
    (unpacked s p).neg = unpacked (-s) p := by
  by_cases hPos : 0 < significand p
  · rw [unpacked_of_pos hPos, unpacked_of_pos hPos]
    rfl
  · rw [unpacked_of_not_pos hPos, unpacked_of_not_pos hPos]
    rfl

/- What a finite pattern is unpacked to is finite. -/
theorem isFinite_unpacked
    (s : Sign)
    (p : Nat) :
    (unpacked s p).isFinite = true := by
  by_cases hPos : 0 < significand p
  · rw [unpacked_of_pos hPos]
    rfl
  · rw [unpacked_of_not_pos hPos]
    rfl

/-
  The same significand and exponent are equal as numbers if
  they have the same sign or are zeros.
-/
theorem beq_unpacked
    {s t : Sign}
    (h : s = t ∨ p = 0) :
    (unpacked s p).beq (unpacked t p) = true := by
  by_cases hPos : 0 < significand p
  · have hSign : s = t := by
      rcases h with hSign | rfl
      · exact hSign
      · cases hPos
    rw [hSign, unpacked_of_pos hPos,
      beq_iff_ne_notANumber_and_eq]
    exact ⟨nofun, nofun, .inl rfl⟩
  · rw [unpacked_of_not_pos hPos, unpacked_of_not_pos hPos]
    rfl

/- Finite bits are unpacked by their sign and pattern. -/
theorem unpack_eq_unpacked
    (hPattern : v.toNat % 2 ^ 63 = p)
    (hFinite : p < infinite) :
    unpack Format.binary64 v =
      unpacked
        (Sign.ofBitVec (@unpackSign Format.binary64 v)) p := by
  have hOnes :
      @unpackExponent Format.binary64 v ≠ -1#_ := by
    rw [Ne, unpackExponent_eq_iff, hPattern]
    exact Nat.not_le.mpr hFinite
  rw [infinite_eq] at hFinite
  have hExponent :
      (@unpackExponent Format.binary64 v).toNat =
        p / 2 ^ 52 := by
    rw [toNat_unpackExponent]
    omega
  have hMantissa :
      (@unpackMantissa Format.binary64 v).toNat =
        p % 2 ^ 52 := by
    rw [toNat_unpackMantissa]
    omega
  have hZero {n : Nat} (w : BitVec n) :
      w = 0#n ↔ w.toNat = 0 :=
    BitVec.toNat_inj.symm
  have hBias : Format.binary64.exponentBias = 1023 := rfl
  have hSplit := shift_mul_add_significand p
  have hShift := shift_eq p
  unfold unpack unpacked
  simp only [hOnes, if_false, hZero, toNat_one_append,
    hExponent, hMantissa, hBias]
  -- Subnormal patterns lack the leading bit, and their
  -- exponent field counts one less than the exponent.
  split
  · split
    · rw [dif_neg (by omega)]
    · rw [dif_pos (by omega), UnpackedFloat.finite.injEq]
      exact ⟨rfl, by omega, by omega⟩
  · rw [dif_pos (by omega), UnpackedFloat.finite.injEq]
    exact ⟨rfl, by omega, by omega⟩

------------------------------------------------------------
-- Signs and Patterns
------------------------------------------------------------

/- The sign of a double. -/
def sign
    (x : Float) : Sign :=
  if isNegative x then .negative else .positive

/- A double is negative if its sign is. -/
theorem isNegative_iff :
    isNegative x = true ↔ sign x = .negative := by
  unfold sign
  cases isNegative x <;> simp

/- The bits of a double are its sign and its pattern. -/
theorem toNat_toBits
    (x : Float) :
    x.toBits.toNat =
      (sign x).toBitVec.toNat * 2 ^ 63 + pattern x := by
  have hBits := x.toBits.toNat_lt
  unfold sign isNegative pattern
  simp only [Nat.pow_eq]
  by_cases hNegative : 2 ^ 63 ≤ x.toBits.toNat
  · rw [if_pos (by simpa using hNegative)]
    change _ = 1 * 2 ^ 63 + _
    omega
  · rw [if_neg (by simpa using hNegative)]
    change _ = 0 * 2 ^ 63 + _
    omega

/- Doubles of the same sign and pattern are the same. -/
theorem eq_of_pattern_eq
    (hSign : sign x = sign y)
    (hPattern : pattern x = pattern y) :
    x = y := by
  apply Float.toBits_inj.mp
  apply UInt64.toNat_inj.mp
  rw [toNat_toBits, toNat_toBits, hSign, hPattern]

/- A finite double is unpacked by its sign and pattern. -/
theorem unpack_toModel
    (hFinite : pattern x < infinite) :
    x.toModel.unpack = unpacked (sign x) (pattern x) := by
  have hBit :
      @unpackSign Format.binary64 x.toBits.toBitVec =
        (sign x).toBitVec := by
    have hLess : pattern x < 2 ^ 63 := by
      rw [infinite_eq] at hFinite
      omega
    apply BitVec.eq_of_toNat_eq
    rw [toNat_unpackSign]
    change x.toBits.toNat / 2 ^ 63 = _
    rw [toNat_toBits]
    omega
  have hSign :
      Sign.ofBitVec
          (@unpackSign Format.binary64 x.toBits.toBitVec) =
        sign x := by
    rw [hBit, Sign.ofBitVec_toBitVec]
  rw [← hSign]
  apply unpack_eq_unpacked _ hFinite
  unfold pattern
  rw [Nat.pow_eq]
  rfl

/- The double with a sign and a finite pattern. -/
def ofPattern
    (s : Sign)
    (p : Nat) : Float :=
  Float.ofBits (UInt64.ofNat (s.toBitVec.toNat * 2 ^ 63 + p))

/- Its bits are this sign and this pattern. -/
theorem toNat_toBits_ofPattern
    (s : Sign)
    (hFinite : p < infinite) :
    (ofPattern s p).toBits.toNat =
      s.toBitVec.toNat * 2 ^ 63 + p := by
  have hBit := s.toBitVec.isLt
  have hLess : p < 2 ^ 63 := by
    rw [infinite_eq] at hFinite
    omega
  have hBits :
      (UInt64.ofNat
          (s.toBitVec.toNat * 2 ^ 63 + p)).toBitVec.toNat =
        s.toBitVec.toNat * 2 ^ 63 + p := by
    change (UInt64.ofNat _).toNat = _
    rw [UInt64.toNat_ofNat']
    omega
  have hNumber :
      ¬ @isNaNBits Format.binary64
          (UInt64.ofNat
            (s.toBitVec.toNat * 2 ^ 63 + p)).toBitVec := by
    intro hNaN
    have hLast := (of_decide_eq_true hNaN).1
    rw [unpackExponent_eq_iff, hBits] at hLast
    omega
  change
    (pack Format.binary64 (unpack Format.binary64 _)).toNat =
      _
  rw [pack_unpack, if_neg hNumber, hBits]

/- Its pattern is this pattern. -/
theorem pattern_ofPattern
    (s : Sign)
    (hFinite : p < infinite) :
    pattern (ofPattern s p) = p := by
  unfold pattern
  rw [toNat_toBits_ofPattern s hFinite]
  rw [infinite_eq] at hFinite
  simp only [Nat.pow_eq]
  omega

/- Its sign is this sign. -/
theorem sign_ofPattern
    (s : Sign)
    (hFinite : p < infinite) :
    sign (ofPattern s p) = s := by
  unfold sign isNegative
  rw [toNat_toBits_ofPattern s hFinite]
  rw [infinite_eq] at hFinite
  simp only [Nat.pow_eq, decide_eq_true_eq]
  cases s with
  | negative =>
      apply if_pos
      change _ ≤ 1 * 2 ^ 63 + p
      omega
  | positive =>
      apply if_neg
      change ¬ _ ≤ 0 * 2 ^ 63 + p
      omega

/- A finite double has its sign and its pattern. -/
theorem ofPattern_sign_pattern
    (hFinite : pattern x < infinite) :
    ofPattern (sign x) (pattern x) = x :=
  eq_of_pattern_eq
    (sign_ofPattern (sign x) hFinite)
    (pattern_ofPattern (sign x) hFinite)

/- The bits of a pattern are those of a positive double. -/
theorem ofBits_ofNat
    (p : Nat) :
    Float.ofBits (UInt64.ofNat p) =
      ofPattern .positive p := by
  have hBits : Sign.positive.toBitVec.toNat * 2 ^ 63 + p = p :=
    Nat.zero_add p
  unfold ofPattern
  rw [hBits]

/- Negation changes the sign of a finite double. -/
theorem neg_eq_ofPattern
    (hFinite : pattern x < infinite) :
    -x = ofPattern (-sign x) (pattern x) := by
  have hSign := sign_ofPattern (-sign x) hFinite
  have hPattern := pattern_ofPattern (-sign x) hFinite
  have hUnpack :
      x.toModel.unpack.neg =
        (ofPattern (-sign x) (pattern x)).toModel.unpack := by
    rw [unpack_toModel hFinite, neg_unpacked,
      unpack_toModel (by rwa [hPattern]), hSign, hPattern]
  change Float.ofModel (.pack x.toModel.unpack.neg) = _
  rw [hUnpack]
  exact Float.ofBits_toBits _

------------------------------------------------------------
-- Finite Doubles
------------------------------------------------------------

/- Other bits are not unpacked to a finite double. -/
theorem isFinite_unpack_of_le
    (h : infinite ≤ v.toNat % 2 ^ 63) :
    (unpack Format.binary64 v).isFinite = false := by
  unfold unpack
  dsimp only
  rw [if_pos (unpackExponent_eq_iff.mpr h)]
  split
  · rfl
  · rfl

/- The doubles with a finite pattern are the finite ones. -/
theorem isFinite_iff :
    x.isFinite = true ↔ pattern x < infinite := by
  change x.toModel.unpack.isFinite = true ↔ _
  constructor
  · intro hFinite
    by_contra hOther
    have hPattern :
        infinite ≤ x.toBits.toBitVec.toNat % 2 ^ 63 := by
      unfold pattern at hOther
      simpa [Nat.pow_eq] using hOther
    have hNone := isFinite_unpack_of_le hPattern
    exact Bool.noConfusion (hFinite.symm.trans hNone)
  · intro hFinite
    rw [unpack_toModel hFinite]
    exact isFinite_unpacked _ _

/-
  Finite doubles of the same pattern are equal as numbers if
  they have the same sign or are zeros.
-/
theorem beq_of_pattern_eq
    (hFinite : pattern x < infinite)
    (hPattern : pattern y = pattern x)
    (hSign : sign y = sign x ∨ pattern x = 0) :
    (y == x) = true := by
  change y.toModel.unpack.beq x.toModel.unpack = true
  rw [unpack_toModel hFinite,
    unpack_toModel (by rwa [hPattern]), hPattern]
  exact beq_unpacked hSign

------------------------------------------------------------
-- Numbers
------------------------------------------------------------

/- The number that is unpacked, if it is finite. -/
def unpackedRational? : UnpackedFloat → Option ℚ
  | .zero _ => some 0
  | .finite s m e _ => some ((s.apply m : ℤ) * (2 : ℚ) ^ e)
  | .infinity _ => none
  | .notANumber => none

/- The number that a double stands for, if it is finite. -/
def rational?
    (x : Float) : Option ℚ :=
  unpackedRational? x.toModel.unpack

/- One consists of `2^1074` units. -/
theorem one_eq_zpow :
    (one : ℚ) = 2 ^ (1074 : ℤ) := by
  rw [one_eq, Nat.cast_pow, Nat.cast_ofNat, zpow_ofNat]

/- A significand and its shift stand for a number of units. -/
theorem mul_zpow_eq
    (s : Sign)
    (m e : Nat) :
    ((s.apply m : ℤ) : ℚ) * (2 : ℚ) ^ ((e : ℤ) - 1074) =
      ((s.apply (m * 2 ^ e : Nat) : ℤ) : ℚ) / (one : ℚ) := by
  rw [one_eq_zpow, zpow_sub₀ two_ne_zero, zpow_natCast]
  -- The power of the unit must not be computed.
  generalize (2 : ℚ) ^ (1074 : ℤ) = unit
  cases s
  · simp only [Sign.apply]
    push_cast
    ring
  · simp only [Sign.apply]
    push_cast
    ring

/- What is unpacked stands for the units of its pattern. -/
theorem unpackedRational?_unpacked
    (s : Sign)
    (p : Nat) :
    unpackedRational? (unpacked s p) =
      some
        (((s.apply (units p) : ℤ) : ℚ) / (one : ℚ)) := by
  have hFinite {m : Nat} {e : ℤ} (hPos : 0 < m) :
      unpackedRational? (.finite s m e hPos) =
        some ((s.apply m : ℤ) * (2 : ℚ) ^ e) :=
    rfl
  rw [units_eq, ← mul_zpow_eq]
  by_cases hPos : 0 < significand p
  · rw [unpacked_of_pos hPos, hFinite]
  · have hZero : significand p = 0 :=
      Nat.eq_zero_of_not_pos hPos
    have hNone : s.apply (0 : Nat) = 0 := by
      cases s
      · rfl
      · rfl
    rw [unpacked_of_not_pos hPos, hZero, hNone,
      Int.cast_zero, zero_mul]
    rfl

/- A finite double stands for the units of its pattern. -/
theorem rational?_eq_some
    (hFinite : pattern x < infinite) :
    rational? x =
      some
        ((((sign x).apply (units (pattern x)) : ℤ) : ℚ) /
          (one : ℚ)) := by
  unfold rational?
  rw [unpack_toModel hFinite, unpackedRational?_unpacked]

/- The doubles that stand for a number are the finite ones. -/
theorem exists_rational?_iff :
    (∃ q, rational? x = some q) ↔ x.isFinite = true := by
  change _ ↔ x.toModel.unpack.isFinite = true
  unfold rational?
  cases x.toModel.unpack with
  | zero s => exact iff_of_true ⟨_, rfl⟩ rfl
  | finite s m e hPos => exact iff_of_true ⟨_, rfl⟩ rfl
  | infinity s => exact iff_of_false nofun nofun
  | notANumber => exact iff_of_false nofun nofun

/- Their patterns are finite. -/
theorem pattern_lt_of_rational?
    {q : ℚ}
    (h : rational? x = some q) :
    pattern x < infinite :=
  isFinite_iff.mp (exists_rational?_iff.mp ⟨q, h⟩)

------------------------------------------------------------
-- Rounded Ratios
------------------------------------------------------------

variable {n d : Nat}

/- A ratio that is rounded to a finite pattern has a double. -/
theorem ofRatio?_eq_some
    (h : nearest n d < infinite) :
    ofRatio? n d =
      some (ofPattern .positive (nearest n d)) := by
  unfold ofRatio?
  dsimp only
  rw [if_pos h, ofBits_ofNat]

/- No other ratio has one. -/
theorem nearest_lt_of_ofRatio?
    (h : ofRatio? n d = some x) :
    nearest n d < infinite := by
  by_contra hOther
  unfold ofRatio? at h
  dsimp only at h
  rw [if_neg hOther] at h
  cases h

/- A ratio has a double unless it is too great. -/
theorem exists_ofRatio?_iff
    (hd : 0 < d) :
    (∃ x, ofRatio? n d = some x) ↔
      (n : ℚ) / d < 2 ^ 1024 - 2 ^ 970 := by
  have hBound {high low : Nat} (h : low ≤ high) :
      (2 : ℚ) ^ high - 2 ^ low =
        (2 ^ high - 2 ^ low : Nat) := by
    rw [Nat.cast_sub (Nat.pow_le_pow_right Nat.two_pos h),
      Nat.cast_pow, Nat.cast_pow, Nat.cast_ofNat]
  rw [hBound (by omega), div_lt_iff₀ (Nat.cast_pos.mpr hd),
    ← Nat.cast_mul, Nat.cast_lt, ← nearest_lt_infinite_iff hd]
  constructor
  · rintro ⟨x, hx⟩
    exact nearest_lt_of_ofRatio? hx
  · intro h
    exact ⟨_, ofRatio?_eq_some h⟩

/- The double of a ratio is finite. -/
theorem isFinite_of_ofRatio?
    (h : ofRatio? n d = some x) :
    x.isFinite = true := by
  have hFinite := nearest_lt_of_ofRatio? h
  rw [ofRatio?_eq_some hFinite, Option.some.injEq] at h
  rw [← h, isFinite_iff, pattern_ofPattern _ hFinite]
  exact hFinite

end Double

end Lox
