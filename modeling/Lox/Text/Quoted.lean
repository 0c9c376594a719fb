import Lox.Text.Printable

/-
  Quoted text: one line of printable characters between
  quotation marks, from which the text can be told.

  Key definitions include:
    * `Text.hexDigits`
    * `Text.quoteMark`
    * `Text.escape`
    * `Text.quoted`
-/

namespace Lox

namespace Text

/- A hexadecimal digit, in lower case. -/
def hexDigit
    (n : Nat) : Char :=
  if n < 10 then Char.ofNat (48 + n) else Char.ofNat (87 + n)

/- The last `width` hexadecimal digits of a number. -/
def hexDigits : (width : Nat) → Nat → List Char
  | 0, _ => []
  | width + 1, n =>
      hexDigits width (n / 16) ++ [hexDigit (n % 16)]

/-
  Text is put between single marks, unless it holds a
  single mark and no double one.
-/
def quoteMark
    (cs : List Char) : Char :=
  if '\'' ∈ cs ∧ '"' ∉ cs then '"' else '\''

/-
  One character between the marks `mark`.  A backslash, the
  mark itself and the characters that do not print are
  escaped; code points take two, four or eight digits.
-/
def escape
    (mark c : Char) : List Char :=
  if c = '\\' ∨ c = mark then ['\\', c]
  else if c = '\n' then ['\\', 'n']
  else if c = '\r' then ['\\', 'r']
  else if c = '\t' then ['\\', 't']
  else if isPrintable c then [c]
  else if c.toNat < 0x100 then
    '\\' :: 'x' :: hexDigits 2 c.toNat
  else if c.toNat < 0x10000 then
    '\\' :: 'u' :: hexDigits 4 c.toNat
  else '\\' :: 'U' :: hexDigits 8 c.toNat

/- Text between quotation marks. -/
def quoted
    (s : String) : String :=
  let mark := quoteMark s.toList
  String.ofList
    (mark :: s.toList.flatMap (escape mark) ++ [mark])

end Text

end Lox
