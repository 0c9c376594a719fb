import Lox.Double
import Lox.Lexeme
import Lox.Token
import Lox.Token.Error

/-
  Scanning: from a source text to its tokens.

  The text is cut into lexemes, and every lexeme is read on
  its own.  A lexeme starts on the line that the line feeds
  of the lexemes before it lead to.

  Key definitions include:
    * `Lexeme.number?`
    * `Lexeme.read`
    * `Token.scanLexemes`
    * `Token.scan`
    * `Token.tokensOf`
    * `Token.errorsOf`
-/

namespace Lox

namespace Lexeme

------------------------------------------------------------
-- Numbers
------------------------------------------------------------

/- A number without a point has no more digits than this. -/
def mostDigits : Nat := 4300

/- The digits of a number, read in base ten. -/
def digitsValue
    (cs : List Char) : Nat :=
  (cs.filter Char.isDigit).foldl
    (fun n c => 10 * n + (c.toNat - '0'.toNat)) 0

/- How many digits follow the first point. -/
def places
    (cs : List Char) : Nat :=
  ((cs.dropWhile (· != '.')).drop 1).length

/-
  The literal of a run of digits and points, if it has one:
  at most one point is allowed, the digits of an integer are
  limited, and the value has to round to a finite double.
-/
def number?
    (cs : List Char) : Option Literal :=
  if 1 < cs.count '.' then none
  else if '.' ∈ cs then
    (Double.ofRatio? (digitsValue cs)
        (Nat.pow 10 (places cs))).map
      .decimal
  else if mostDigits < cs.length then none
  else
    (Double.ofRatio? (digitsValue cs) 1).map
      (fun _ => .integer (digitsValue cs))

------------------------------------------------------------
-- Reading One Lexeme
------------------------------------------------------------

/-
  The kind of a lexeme that consists of one character and
  cannot be continued.
-/
def single? : Char → Option Kind
  | '(' => some .leftParen
  | ')' => some .rightParen
  | '{' => some .leftBrace
  | '}' => some .rightBrace
  | ',' => some .comma
  | '.' => some .dot
  | '-' => some .minus
  | '+' => some .plus
  | ';' => some .semicolon
  | '*' => some .star
  | _ => none

/-
  The kinds of a character that an equality sign may
  follow, alone and with that sign.
-/
def paired? : Char → Option (Kind × Kind)
  | '!' => some (.bang, .bangEqual)
  | '=' => some (.equal, .equalEqual)
  | '<' => some (.less, .lessEqual)
  | '>' => some (.greater, .greaterEqual)
  | _ => none

/- The literal of a word. -/
def wordLiteral : Kind → Literal
  | .trueWord => .bool true
  | .falseWord => .bool false
  | _ => .absent

/-
  The token that a lexeme on a line is, or what is wrong
  with it.
-/
def read
    (line : Int)
    (w : Lexeme) : Except LexError Token :=
  let plain (k : Kind) : Token :=
    ⟨k, w.text, .absent, line⟩
  let c := w.first
  if isBlank c then .ok (plain .blank)
  else if c = '/' then
    .ok (plain (if w.more.isEmpty then .slash else .comment))
  else
    match single? c, paired? c with
    | some k, _ => .ok (plain k)
    | none, some (alone, withEqual) =>
        .ok (plain (if w.more.isEmpty then alone else withEqual))
    | none, none =>
        if c = '"' then
          match w.more.getLast? with
          | some '"' =>
              .ok ⟨.string, w.text,
                .text (String.ofList w.more.dropLast), line⟩
          | _ => .error ⟨line, .unterminatedString⟩
        else if c.isDigit then
          match number? w.chars with
          | some n => .ok ⟨.number, w.text, n, line⟩
          | none => .error ⟨line, .invalidNumber w.text⟩
        else if startsWord c then
          let k := Kind.ofWord w.text
          .ok ⟨k, w.text, wordLiteral k, line⟩
        else .error ⟨line, .unexpectedCharacter c⟩

end Lexeme

------------------------------------------------------------
-- Scanning a Source
------------------------------------------------------------

namespace Token

/- How many line feeds a text holds. -/
def newlines
    (cs : List Char) : Nat :=
  cs.count '\n'

/- Read lexemes of which the first starts on a line. -/
def scanLexemes
    (line : Int) :
    List Lexeme → List (Except LexError Token)
  | [] => [.ok (Token.endOfInput line)]
  | w :: ws =>
      w.read line :: scanLexemes (line + newlines w.chars) ws

/- Scan a text that starts on a line. -/
def scanFrom
    (line : Int)
    (source : String) : List (Except LexError Token) :=
  scanLexemes line (Lexeme.cut source.toList)

/-
  Scan a source: a token or an error for every lexeme, in
  order, and the token that ends the source.
-/
def scan
    (source : String) : List (Except LexError Token) :=
  scanFrom 1 source

/- The tokens of a scan. -/
def tokensOf
    (items : List (Except LexError Token)) : List Token :=
  items.filterMap Except.toOption

/- The errors of a scan. -/
def errorsOf
    (items : List (Except LexError Token)) : List LexError :=
  items.filterMap
    (fun
      | .ok _ => none
      | .error e => some e)

end Token

end Lox
