import Lox.Double.Shortest

/-
  The text of a double.

  Key definitions include:
    * `Double.Layout`
    * `Double.standard`
    * `Double.magnitudeText`
    * `Double.text`
-/

namespace Lox

namespace Double

------------------------------------------------------------
-- Digits and Exponents
------------------------------------------------------------

/-
  How a decimal is laid out: from which exponent of its
  leading digit on, and below which, it is written with an
  exponent, and how many digits an exponent has at least.
-/
structure Layout where
  lowest : Int
  highest : Int
  exponentDigits : Nat

/-
  Numbers are positional from one ten-thousandth up to ten
  to the sixteenth, and exponents have two digits or more.
-/
def standard : Layout :=
  ⟨-4, 16, 2⟩

/- Digits with zeros in front, `width` in all or more. -/
def padded
    (width n : Nat) : List Char :=
  let ds := Nat.toDigits 10 n
  List.replicate (width - ds.length) '0' ++ ds

/- The digits of a number, without zeros at the end. -/
def digits
    (n : Nat) : List Char :=
  ((Nat.toDigits 10 n).reverse.dropWhile (· == '0')).reverse

/-
  The decimal with the significant digits `ds`, the first of
  which has the exponent `e`, written positionally with at
  least one digit on either side of the point.
-/
def positional
    (ds : List Char)
    (e : Int) : List Char :=
  if e < 0 then
    '0' :: '.' :: List.replicate (-e - 1).toNat '0' ++ ds
  else
    let whole := e.toNat + 1
    let front := ds.take whole
    let back := ds.drop whole
    front ++ List.replicate (whole - ds.length) '0' ++
      '.' :: (if back.isEmpty then ['0'] else back)

/-
  The same decimal written with an exponent, and with a
  point only if there are digits behind it.
-/
def exponential
    (layout : Layout)
    (ds : List Char)
    (e : Int) : List Char :=
  let back := ds.drop 1
  ds.take 1 ++ (if back.isEmpty then [] else '.' :: back) ++
    'e' :: (if e < 0 then '-' else '+') ::
      padded layout.exponentDigits e.natAbs

/- The text of a positive finite pattern. -/
def magnitudeText
    (layout : Layout)
    (p : Nat) : List Char :=
  let (n, places) := shortest p
  let ds := digits n
  let e : Int := (Nat.toDigits 10 n).length - 1 + places
  if e < layout.lowest ∨ layout.highest ≤ e then
    exponential layout ds e
  else positional ds e

------------------------------------------------------------
-- Every Double
------------------------------------------------------------

/-
  The text of a double that shows it to be one: a finite
  double always has a point or an exponent.
-/
def text
    (x : Float) : String :=
  let p := pattern x
  let mark := if isNegative x then ['-'] else []
  if p = 0 then String.ofList (mark ++ ['0', '.', '0'])
  else if p < infinite then
    String.ofList (mark ++ magnitudeText standard p)
  else if p = infinite then
    String.ofList (mark ++ ['i', 'n', 'f'])
  else "nan"

end Double

end Lox
