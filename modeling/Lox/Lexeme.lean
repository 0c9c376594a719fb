/-
  Lexemes: the pieces into which a source text is cut.

  The first character of a piece decides what may follow it.
  Cutting keeps every character, so the pieces in order are
  the source again.

  Key definitions include:
    * `Lexeme`
    * `Lexeme.following`
    * `Lexeme.cut`

  Cutting is described by:
    * `Lexeme.following_append`
    * `Lexeme.flatMap_chars_cut`
-/

namespace Lox

/- A piece of source text; it is never empty. -/
structure Lexeme where
  first : Char
  more : List Char
deriving DecidableEq

namespace Lexeme

------------------------------------------------------------
-- Characters
------------------------------------------------------------

/- The characters of a piece. -/
def chars
    (w : Lexeme) : List Char :=
  w.first :: w.more

/- The text of a piece. -/
def text
    (w : Lexeme) : String :=
  String.ofList w.chars

/- The characters that separate lexemes. -/
def isBlank
    (c : Char) : Bool :=
  c == ' ' || c == '\t' || c == '\r' || c == '\n'

/- The characters that an equality sign may follow. -/
def pairsWithEqual
    (c : Char) : Bool :=
  c == '!' || c == '=' || c == '<' || c == '>'

/- The characters that start a word: ASCII letters and `_`. -/
def startsWord
    (c : Char) : Bool :=
  c.isAlpha || c == '_'

/- The characters that go on with a word. -/
def inWord
    (c : Char) : Bool :=
  startsWord c || c.isDigit

/- The characters that go on with a number. -/
def inNumber
    (c : Char) : Bool :=
  c.isDigit || c == '.'

------------------------------------------------------------
-- Cutting
------------------------------------------------------------

/-
  The characters that belong to the piece which `c` starts,
  taken off the text after `c`, and what is left of it.  A
  text that is opened and never closed takes all there is.
-/
def following
    (c : Char)
    (rest : List Char) : List Char × List Char :=
  if c = '/' then
    match rest with
    | '/' :: _ =>
        (rest.takeWhile (· != '\n'),
          rest.dropWhile (· != '\n'))
    | _ => ([], rest)
  else if pairsWithEqual c then
    match rest with
    | '=' :: after => (['='], after)
    | _ => ([], rest)
  else if c = '"' then
    let body := rest.takeWhile (· != '"')
    match rest.dropWhile (· != '"') with
    | [] => (body, [])
    | close :: after => (body ++ [close], after)
  else if c.isDigit then
    (rest.takeWhile inNumber, rest.dropWhile inNumber)
  else if startsWord c then
    (rest.takeWhile inWord, rest.dropWhile inWord)
  else ([], rest)

/- Nothing is lost between a piece and what is left. -/
theorem following_append
    (c : Char)
    (rest : List Char) :
    (following c rest).1 ++ (following c rest).2 = rest := by
  unfold following
  split
  · split <;> simp
  · split
    · split <;> simp
    · split
      · have hSplit := List.takeWhile_append_dropWhile
          (p := (· != '"')) (l := rest)
        split <;> rename_i hRest <;> simp_all
      · split
        · simp
        · split <;> simp

/- What is left is no longer than what there was. -/
theorem length_following_le
    (c : Char)
    (rest : List Char) :
    (following c rest).2.length ≤ rest.length := by
  have h := congrArg List.length (following_append c rest)
  simp only [List.length_append] at h
  omega

/- Cut a text into its pieces. -/
def cut : List Char → List Lexeme
  | [] => []
  | c :: rest =>
      ⟨c, (following c rest).1⟩ :: cut (following c rest).2
termination_by cs => cs.length
decreasing_by
  have := length_following_le c rest
  simp only [List.length_cons]
  omega

/- The pieces of a text, put together, are the text. -/
theorem flatMap_chars_cut
    (cs : List Char) :
    (cut cs).flatMap chars = cs := by
  fun_induction cut cs with
  | case1 => rfl
  | case2 c rest ih =>
      simp [chars, ih, following_append]

end Lexeme

end Lox
