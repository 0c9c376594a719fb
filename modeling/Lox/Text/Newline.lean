/-
  Line ends.  A carriage return, alone or before a line
  feed, ends a line just as a line feed does.

  Key definitions include:
    * `Text.unifyNewlines`
    * `Text.lines`
-/

namespace Lox

namespace Text

/- Write every line end as one line feed. -/
def unifyNewlines : List Char → List Char
  | [] => []
  | '\r' :: '\n' :: rest => '\n' :: unifyNewlines rest
  | c :: rest =>
      (if c = '\r' then '\n' else c) :: unifyNewlines rest

/-
  The lines of a text without their line feeds.  What
  follows the last line feed is a line if it is not empty.
-/
def lines : List Char → List (List Char)
  | [] => []
  | '\n' :: rest => [] :: lines rest
  | c :: rest =>
      match lines rest with
      | [] => [[c]]
      | l :: ls => (c :: l) :: ls

end Text

end Lox
