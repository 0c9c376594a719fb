/-
  The double-precision numbers seen as exact rationals.

  A finite double is a whole number of units of `2^-1074`.
  Leaving its sign aside, the bit pattern of a double counts
  the doubles below it, and `units` says how many units the
  pattern stands for; it grows with the pattern.

  Key definitions include:
    * `Double.pattern`
    * `Double.isNegative`
    * `Double.units`
    * `Double.wholePart?`
    * `Double.nearest`
    * `Double.ofRatio?`
    * `Double.ofInt?`
-/

namespace Lox

namespace Double

------------------------------------------------------------
-- Bit Patterns
------------------------------------------------------------

/- The pattern of positive infinity. -/
def infinite : Nat := 2047 * Nat.pow 2 52

/- How many units make one. -/
def one : Nat := Nat.pow 2 1074

/- The bits of a double, its sign bit aside. -/
def pattern
    (x : Float) : Nat :=
  x.toBits.toNat % Nat.pow 2 63

/- Whether the sign bit of a double is set. -/
def isNegative
    (x : Float) : Bool :=
  Nat.pow 2 63 ≤ x.toBits.toNat

/-
  By how many binary places a pattern's significand is
  shifted.  The lowest two binades share the shift zero.
-/
def shift
    (p : Nat) : Nat :=
  p / Nat.pow 2 52 - 1

/- The significand of a pattern, its leading bit included. -/
def significand
    (p : Nat) : Nat :=
  p - shift p * Nat.pow 2 52

/- The number of units a finite pattern stands for. -/
def units
    (p : Nat) : Nat :=
  significand p * Nat.pow 2 (shift p)

/-
  The absolute value of a finite double, if it is a whole
  number.
-/
def wholePart?
    (x : Float) : Option Nat :=
  if pattern x < infinite ∧ units (pattern x) % one = 0 then
    some (units (pattern x) / one)
  else none

------------------------------------------------------------
-- Rounding
------------------------------------------------------------

/-
  The whole number nearest to `n / d`; of two equally near
  ones, the even one.
-/
def roundHalfEven
    (n d : Nat) : Nat :=
  let q := n / d
  let r := n % d
  if 2 * r < d then q
  else if d < 2 * r then q + 1
  else q + q % 2

/-
  The pattern of the double nearest to `n / d`.  The number
  of units is rounded to 53 binary digits.  Where rounding
  carries into a further digit, the sum runs over into the
  next binade, as it should.
-/
def nearest
    (n d : Nat) : Nat :=
  let s := (n * one / d).log2 - 52
  s * Nat.pow 2 52 +
    roundHalfEven (n * one) (d * Nat.pow 2 s)

/- The double nearest to `n / d`, unless it is infinite. -/
def ofRatio?
    (n d : Nat) : Option Float :=
  let p := nearest n d
  if p < infinite then some (Float.ofBits (UInt64.ofNat p))
  else none

/- The double nearest to an integer, unless it is infinite. -/
def ofInt?
    (n : Int) : Option Float :=
  (ofRatio? n.natAbs 1).map
    (fun x => if n < 0 then -x else x)

end Double

end Lox
