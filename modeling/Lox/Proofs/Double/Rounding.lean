import Lox.Double
import Mathlib.Algebra.Order.Ring.Nat
import Mathlib.Tactic.Linarith
import Mathlib.Tactic.Ring

/-
  Rounding to a double.

  A number of units is shifted until 53 binary digits are
  left, and the rest of it is rounded half to even.  So the
  value of a double is rounded to this double, and a number
  is rounded to a finite double as long as it lies below the
  midpoint of the greatest one and the power of two after it.

  Key definitions include:
    * `Double.IsShift`

  Key theorems include:
    * `Double.roundHalfEven_le_iff`
    * `Double.nearest_of_isShift`
    * `Double.nearest_eq_of_units`
    * `Double.nearest_lt_infinite_iff`
-/

namespace Lox

namespace Double

variable {n d k p s t : Nat}

------------------------------------------------------------
-- Whole Numbers
------------------------------------------------------------

/-
  Rounding goes to `k` or below up to the midpoint of `k` and
  the next number, which goes to the even one of them.
-/
theorem roundHalfEven_le_iff
    (hd : 0 < d) :
    roundHalfEven n d ≤ k ↔
      2 * n < (2 * k + 1) * d ∨
        2 * n = (2 * k + 1) * d ∧ k % 2 = 0 := by
  have hSplit := Nat.div_add_mod n d
  have hRest := Nat.mod_lt n hd
  have hOdd : (2 * k + 1) * d = 2 * (d * k) + d := by
    ring
  unfold roundHalfEven
  dsimp only
  rw [hOdd]
  rcases Nat.lt_trichotomy (n / d) k with hLess | rfl | hMore
  · have hNext := Nat.mul_le_mul_left d hLess
    rw [Nat.mul_succ] at hNext
    split_ifs <;> omega
  · split_ifs <;> omega
  · have hNext := Nat.mul_le_mul_left d hMore
    rw [Nat.mul_succ] at hNext
    split_ifs <;> omega

/- Rounding keeps within whole bounds. -/
theorem roundHalfEven_le
    (hd : 0 < d)
    (h : n ≤ k * d) :
    roundHalfEven n d ≤ k := by
  rw [roundHalfEven_le_iff hd]
  left
  linarith

/- Rounding keeps within whole bounds. -/
theorem le_roundHalfEven
    (hd : 0 < d)
    (h : k * d ≤ n) :
    k ≤ roundHalfEven n d := by
  cases k with
  | zero => exact Nat.zero_le _
  | succ k =>
      by_contra hLess
      rw [Nat.not_le, Nat.lt_succ_iff,
        roundHalfEven_le_iff hd] at hLess
      rw [Nat.succ_mul] at h
      rcases hLess with hLess | ⟨hEqual, -⟩
      · linarith
      · linarith

/- A whole number is rounded to itself. -/
theorem roundHalfEven_mul
    (hd : 0 < d)
    (k : Nat) :
    roundHalfEven (k * d) d = k :=
  Nat.le_antisymm
    (roundHalfEven_le hd (Nat.le_refl _))
    (le_roundHalfEven hd (Nat.le_refl _))

------------------------------------------------------------
-- Shifts
------------------------------------------------------------

/- A number is less the less it is shifted. -/
theorem mul_two_pow_le
    (d : Nat)
    (h : s ≤ t) :
    d * 2 ^ s ≤ d * 2 ^ t :=
  Nat.mul_le_mul_left d (Nat.pow_le_pow_right (by decide) h)

/- One more place doubles a number. -/
theorem mul_two_pow_succ
    (d s : Nat) :
    d * 2 ^ (s + 1) = 2 * (d * 2 ^ s) := by
  ring

/-
  Whether `n / d`, shifted by `s` binary places, has no more
  than 53 binary digits before the point, and exactly as many
  if it is shifted at all.
-/
structure IsShift
    (n d s : Nat) : Prop where
  lt : n < 2 ^ 53 * (d * 2 ^ s)
  le : s = 0 ∨ 2 ^ 52 * (d * 2 ^ s) ≤ n

namespace IsShift

/- A number with a shift needs no less than this. -/
theorem le_of_le
    (h : IsShift n d s)
    (ht : t = 0 ∨ 2 ^ 52 * (d * 2 ^ t) ≤ n) :
    t ≤ s := by
  rcases ht with rfl | ht
  · exact Nat.zero_le s
  · have hLess := Nat.lt_of_le_of_lt ht h.lt
    have hPowers : 2 ^ (52 + t) < 2 ^ (53 + s) := by
      apply Nat.lt_of_mul_lt_mul_left (a := d)
      rw [pow_add, pow_add]
      linarith
    have := (Nat.pow_lt_pow_iff_right (by decide)).mp hPowers
    omega

/- There is only one shift. -/
theorem unique
    (hs : IsShift n d s)
    (ht : IsShift n d t) :
    s = t :=
  Nat.le_antisymm (ht.le_of_le hs.le) (hs.le_of_le ht.le)

end IsShift

/- The number of binary digits tells the shift. -/
theorem isShift_log2
    (hd : 0 < d) :
    IsShift n d ((n / d).log2 - 52) := by
  have hUpper := Nat.lt_log2_self (n := n / d)
  rcases Nat.lt_or_ge 52 (n / d).log2 with hMany | hFew
  · obtain ⟨s, hs⟩ := Nat.exists_eq_add_of_lt hMany
    have hNonzero : n / d ≠ 0 := by
      intro hZero
      rw [hZero] at hs
      cases hs
    have hLower := Nat.log2_self_le hNonzero
    have hShift : (n / d).log2 - 52 = s + 1 := by omega
    rw [hShift]
    rw [hs, Nat.div_lt_iff_lt_mul hd] at hUpper
    rw [hs, Nat.le_div_iff_mul_le hd] at hLower
    refine ⟨?_, .inr ?_⟩
    · calc
        n < 2 ^ (52 + s + 1 + 1) * d := hUpper
        _ = 2 ^ 53 * (d * 2 ^ (s + 1)) := by ring
    · calc
        2 ^ 52 * (d * 2 ^ (s + 1)) = 2 ^ (52 + s + 1) * d := by
          ring
        _ ≤ n := hLower
  · rw [Nat.sub_eq_zero_of_le hFew]
    refine ⟨?_, .inl rfl⟩
    rw [Nat.pow_zero, Nat.mul_one,
      ← Nat.div_lt_iff_lt_mul hd]
    exact Nat.lt_of_lt_of_le hUpper
      (Nat.pow_le_pow_right (by decide)
        (Nat.succ_le_succ hFew))

------------------------------------------------------------
-- Doubles
------------------------------------------------------------

/- How many units make one. -/
theorem one_eq :
    one = 2 ^ 1074 := by
  -- The power must not be computed.
  delta one
  generalize 1074 = e
  rfl

/- There is a unit. -/
theorem one_pos :
    0 < one := by
  delta one
  generalize 1074 = e
  exact Nat.two_pow_pos e

/- The pattern of infinity has the greatest exponent. -/
theorem infinite_eq :
    infinite = 2047 * 2 ^ 52 := by
  unfold infinite
  rw [Nat.pow_eq]

/- The pattern nearest to a number, by its shift. -/
theorem nearest_of_isShift
    (hd : 0 < d)
    (h : IsShift (n * one) d s) :
    nearest n d =
      s * 2 ^ 52 + roundHalfEven (n * one) (d * 2 ^ s) := by
  rw [← (isShift_log2 hd).unique h]
  unfold nearest
  simp only [Nat.pow_eq]

/- A pattern is its significand above its shift. -/
theorem shift_mul_add_significand
    (p : Nat) :
    shift p * 2 ^ 52 + significand p = p := by
  unfold significand shift
  simp only [Nat.pow_eq]
  omega

/- A significand has no more than 53 binary digits. -/
theorem significand_lt
    (p : Nat) :
    significand p < 2 ^ 53 := by
  unfold significand shift
  simp only [Nat.pow_eq]
  omega

/- It has exactly as many if it is shifted. -/
theorem le_significand
    (p : Nat) :
    shift p = 0 ∨ 2 ^ 52 ≤ significand p := by
  unfold significand shift
  simp only [Nat.pow_eq]
  omega

/- The units of a pattern are its significand, shifted. -/
theorem units_eq
    (p : Nat) :
    units p = significand p * 2 ^ shift p := by
  unfold units
  rw [Nat.pow_eq]

/- The shift of a pattern is the shift of its units. -/
theorem isShift_units
    (hd : 0 < d)
    (p : Nat) :
    IsShift (units p * d) d (shift p) := by
  have hSize : 0 < d * 2 ^ shift p :=
    Nat.mul_pos hd (Nat.two_pow_pos _)
  have hUnits :
      units p * d = significand p * (d * 2 ^ shift p) := by
    rw [units_eq]
    ring
  rw [hUnits]
  refine ⟨Nat.mul_lt_mul_of_pos_right (significand_lt p) hSize,
    ?_⟩
  exact (le_significand p).imp id (Nat.mul_le_mul_right _)

/- The value of a pattern is rounded to this pattern. -/
theorem nearest_eq_of_units
    (hd : 0 < d)
    (h : n * one = units p * d) :
    nearest n d = p := by
  have hShift : IsShift (n * one) d (shift p) := by
    rw [h]
    exact isShift_units hd p
  have hUnits :
      n * one = significand p * (d * 2 ^ shift p) := by
    rw [h, units_eq]
    ring
  have hSize : 0 < d * 2 ^ shift p :=
    Nat.mul_pos hd (Nat.two_pow_pos _)
  rw [nearest_of_isShift hd hShift, hUnits,
    roundHalfEven_mul hSize]
  exact shift_mul_add_significand p

/- Patterns that stand for as many units are the same. -/
theorem units_injective
    {q : Nat}
    (h : units p = units q) :
    p = q := by
  have hSame : units p * one = units q * one := by
    rw [h]
  calc
    p = nearest (units p) one :=
      (nearest_eq_of_units one_pos (Eq.refl _)).symm
    _ = q := nearest_eq_of_units one_pos hSame

/- The least number that is rounded to infinity, in units. -/
theorem lt_bound_iff :
    n < (2 ^ 1024 - 2 ^ 970) * d ↔
      n * one < (2 ^ 54 - 1) * (d * 2 ^ 2044) := by
  have hTop : (2 : Nat) ^ 1024 = 2 ^ 54 * 2 ^ 970 := by
    rw [← pow_add]
  have hUnits : (2 : Nat) ^ 2044 = 2 ^ 970 * one := by
    rw [one_eq, ← pow_add]
  rw [hTop, hUnits]
  generalize 2 ^ 970 = half
  have hFactor :
      (2 ^ 54 - 1) * (d * (half * one)) =
        (2 ^ 54 * half - half) * d * one := by
    rw [← Nat.sub_one_mul]
    ring
  rw [hFactor, Nat.mul_lt_mul_right one_pos]

/-
  A number is rounded to a finite double if it is less than
  the midpoint of the greatest one and the next power of two.
  The midpoint itself is rounded to this power, as it is even.
-/
theorem nearest_lt_infinite_iff
    (hd : 0 < d) :
    nearest n d < infinite ↔
      n < (2 ^ 1024 - 2 ^ 970) * d := by
  obtain ⟨s, hShift⟩ : ∃ s, IsShift (n * one) d s :=
    ⟨_, isShift_log2 hd⟩
  have hSize : 0 < d * 2 ^ s :=
    Nat.mul_pos hd (Nat.two_pow_pos _)
  rw [nearest_of_isShift hd hShift, infinite_eq, lt_bound_iff]
  rcases Nat.lt_trichotomy s 2045 with hLess | hTop | hMore
  · have hMost :
        roundHalfEven (n * one) (d * 2 ^ s) ≤ 2 ^ 53 :=
      roundHalfEven_le hSize (Nat.le_of_lt hShift.lt)
    have hPowers : d * 2 ^ s ≤ d * 2 ^ 2044 :=
      mul_two_pow_le d (Nat.le_of_lt_succ hLess)
    have hUpper := hShift.lt
    generalize d * 2 ^ 2044 = size at *
    exact iff_of_true (by omega) (by omega)
  · have hSucc : d * 2 ^ s = 2 * (d * 2 ^ 2044) := by
      rw [show s = 2044 + 1 from hTop]
      exact mul_two_pow_succ d 2044
    have hRounded (r : Nat) :
        s * 2 ^ 52 + r < 2047 * 2 ^ 52 ↔
          r ≤ 2 ^ 53 - 1 := by
      omega
    rw [hRounded, roundHalfEven_le_iff hSize, hSucc]
    generalize d * 2 ^ 2044 = size at *
    omega
  · have hLeast :
        2 ^ 52 ≤ roundHalfEven (n * one) (d * 2 ^ s) :=
      le_roundHalfEven hSize
        (hShift.le.resolve_left (by omega))
    have hPowers :
        2 * (2 * (d * 2 ^ 2044)) ≤ d * 2 ^ s := by
      rw [← mul_two_pow_succ, ← mul_two_pow_succ]
      exact mul_two_pow_le d hMore
    have hLower := hShift.le.resolve_left (by omega)
    generalize d * 2 ^ 2044 = size at *
    exact iff_of_false (by omega) (by omega)

end Double

end Lox
