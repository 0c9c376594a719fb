/-
  Counting the braces of a line.

  Key definitions include:
    * `Braces.balance`
-/

namespace Lox

namespace Braces

/-
  How many more braces are opened than closed.  Braces in
  quoted text and after two slashes do not count; `quoted`
  tells whether the line starts within quoted text.
-/
def balanceFrom
    (quoted : Bool) : List Char → Int
  | [] => 0
  | c :: rest =>
      if c = '/' ∧ quoted = false ∧ rest.head? = some '/' then 0
      else if c = '"' then balanceFrom (!quoted) rest
      else if quoted then balanceFrom true rest
      else if c = '{' then balanceFrom false rest + 1
      else if c = '}' then balanceFrom false rest - 1
      else balanceFrom false rest

/- The balance of the braces of a line. -/
def balance
    (line : String) : Int :=
  balanceFrom false line.toList

end Braces

end Lox
