/-
  Blank characters, and text without the blanks at its ends.

  Key definitions include:
    * `Text.isBlank`
    * `Text.trim`
-/

namespace Lox

namespace Text

/-
  The characters of white space: the ASCII controls that
  move or separate, and Unicode's spaces and separators.
-/
def isBlank
    (c : Char) : Bool :=
  let n := c.toNat
  (9 ≤ n && n ≤ 13) || (28 ≤ n && n ≤ 32) || n == 0x85 ||
    n == 0xa0 || n == 0x1680 || (0x2000 ≤ n && n ≤ 0x200a) ||
    n == 0x2028 || n == 0x2029 || n == 0x202f ||
    n == 0x205f || n == 0x3000

/- Text without the blanks at either end. -/
def trim
    (s : String) : String :=
  let front := s.toList.dropWhile isBlank
  String.ofList (front.reverse.dropWhile isBlank).reverse

end Text

end Lox
