import Lox.Double

/-
  The fewest decimal digits that tell a double from all
  others.

  The reals that round to a double form an interval between
  the midpoints to its neighbours; the midpoints belong to
  it when the double's pattern is even.  Among the decimal
  grids, coarsest first, the first one that meets the
  interval supplies the digits; of two points on it the one
  nearer to the double is taken.

  Key definitions include:
    * `Double.roundsTo`
    * `Double.onGrid?`
    * `Double.shortest`
-/

namespace Lox

namespace Double

------------------------------------------------------------
-- The Rounding Interval
------------------------------------------------------------

/-
  Whether `n` units, over two, round to the pattern `p`.
  The midpoint of two neighbours, counted in half units, is
  the sum of their units.
-/
def roundsTo
    (p n d : Nat) : Bool :=
  let low := (units (p - 1) + units p) * d
  let high := (units p + units (p + 1)) * d
  if p % 2 = 0 then low ≤ n && n ≤ high
  else low < n && n < high

------------------------------------------------------------
-- Decimal Grids
------------------------------------------------------------

/-
  Decimal values are counted in units of `10^-340`, so that
  every grid of interest has a whole step.
-/
def finest : Nat := 340

/-
  The point that a decimal grid offers for a pattern: the
  multiple of `step`, counted in `10^-340`, nearest to the
  pattern's value among those that round to it.
-/
def onGrid?
    (p step : Nat) : Option Nat :=
  let span := step * one
  let value := units p * Nat.pow 10 finest
  let below := value / span
  let above := below + 1
  let hits (c : Nat) : Bool :=
    roundsTo p (2 * c * span) (Nat.pow 10 finest)
  let gapBelow := value - below * span
  let gapAbove := above * span - value
  match hits below, hits above with
  | false, false => none
  | true, false => some below
  | false, true => some above
  | true, true =>
      if gapBelow < gapAbove then some below
      else if gapAbove < gapBelow then some above
      else some (below + below % 2)

/-
  The first of the grids with steps `10^k`, `k` going down
  from `places` at most `tries` times, that offers a point,
  as the point and the step's exponent.
-/
def firstGrid
    (p : Nat) : (tries places : Nat) → Nat × Nat
  | 0, places => (units p * Nat.pow 10 finest / one, places)
  | tries + 1, places =>
      match onGrid? p (Nat.pow 10 places) with
      | some c => (c, places)
      | none => firstGrid p tries (places - 1)

/-
  The shortest decimal of a positive finite pattern, as a
  whole number and a power of ten.  Seventeen digits always
  suffice.
-/
def shortest
    (p : Nat) : Nat × Int :=
  let length :=
    (Nat.toDigits 10 (units p * Nat.pow 10 finest / one)).length
  let (c, places) := firstGrid p 17 (length - 1)
  (c, (places : Int) - finest)

end Double

end Lox
