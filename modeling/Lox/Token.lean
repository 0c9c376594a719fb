/-
  This file defines the tokens of the language: their
  kinds, the literals they carry, and the token record.

  Key definitions include:
    * `Kind`
    * `Kind.name`
    * `Kind.ofWord`
    * `Literal`
    * `Token`
    * `Kind.isTrivia`
    * `Token.significant`
-/

namespace Lox

------------------------------------------------------------
-- Kinds
------------------------------------------------------------

/- The kinds of tokens. -/
inductive Kind where
  | leftParen
  | rightParen
  | leftBrace
  | rightBrace
  | comma
  | dot
  | minus
  | plus
  | semicolon
  | slash
  | star
  | bang
  | bangEqual
  | equal
  | equalEqual
  | greater
  | greaterEqual
  | less
  | lessEqual
  | identifier
  | string
  | number
  | andWord
  | classWord
  | elseWord
  | falseWord
  | funWord
  | forWord
  | ifWord
  | nilWord
  | orWord
  | printWord
  | returnWord
  | superWord
  | thisWord
  | trueWord
  | varWord
  | whileWord
  | comment
  | blank
  | endOfInput
deriving DecidableEq, Repr

namespace Kind

/- The name under which a kind is listed. -/
def name : Kind → String
  | leftParen => "LEFT_PAREN"
  | rightParen => "RIGHT_PAREN"
  | leftBrace => "LEFT_BRACE"
  | rightBrace => "RIGHT_BRACE"
  | comma => "COMMA"
  | dot => "DOT"
  | minus => "MINUS"
  | plus => "PLUS"
  | semicolon => "SEMICOLON"
  | slash => "SLASH"
  | star => "STAR"
  | bang => "BANG"
  | bangEqual => "BANG_EQUAL"
  | equal => "EQUAL"
  | equalEqual => "EQUAL_EQUAL"
  | greater => "GREATER"
  | greaterEqual => "GREATER_EQUAL"
  | less => "LESS"
  | lessEqual => "LESS_EQUAL"
  | identifier => "IDENTIFIER"
  | string => "STRING"
  | number => "NUMBER"
  | andWord => "AND"
  | classWord => "CLASS"
  | elseWord => "ELSE"
  | falseWord => "FALSE"
  | funWord => "FUN"
  | forWord => "FOR"
  | ifWord => "IF"
  | nilWord => "NIL"
  | orWord => "OR"
  | printWord => "PRINT"
  | returnWord => "RETURN"
  | superWord => "SUPER"
  | thisWord => "THIS"
  | trueWord => "TRUE"
  | varWord => "VAR"
  | whileWord => "WHILE"
  | comment => "COMMENT"
  | blank => "WHITESPACE"
  | endOfInput => "EOF"

/- Every kind, in the order of their declaration. -/
def all : List Kind :=
  [leftParen, rightParen, leftBrace, rightBrace, comma, dot,
    minus, plus, semicolon, slash, star, bang, bangEqual,
    equal, equalEqual, greater, greaterEqual, less,
    lessEqual, identifier, string, number, andWord,
    classWord, elseWord, falseWord, funWord, forWord, ifWord,
    nilWord, orWord, printWord, returnWord, superWord,
    thisWord, trueWord, varWord, whileWord, comment, blank,
    endOfInput]

/- The list of all kinds misses none. -/
theorem mem_all
    (k : Kind) :
    k ∈ all := by
  cases k <;> decide

/- The kind listed under a name. -/
def ofName?
    (s : String) : Option Kind :=
  all.find? (fun k => k.name == s)

/- The reserved words and their kinds. -/
def reserved : List (String × Kind) :=
  [("and", andWord), ("class", classWord),
    ("else", elseWord), ("false", falseWord),
    ("for", forWord), ("fun", funWord), ("if", ifWord),
    ("nil", nilWord), ("or", orWord), ("print", printWord),
    ("return", returnWord), ("super", superWord),
    ("this", thisWord), ("true", trueWord),
    ("var", varWord), ("while", whileWord)]

/- The kind of a word: reserved, or an identifier. -/
def ofWord
    (w : String) : Kind :=
  (reserved.lookup w).getD identifier

/- Blanks and comments carry no meaning. -/
def isTrivia : Kind → Bool
  | blank => true
  | comment => true
  | _ => false

/- The kinds that can only stand at a statement's start. -/
def startsStatement : Kind → Bool
  | classWord => true
  | funWord => true
  | varWord => true
  | forWord => true
  | ifWord => true
  | whileWord => true
  | printWord => true
  | returnWord => true
  | _ => false

/- The kinds of tokens that stand for a value by themselves. -/
def isLiteral : Kind → Bool
  | number => true
  | string => true
  | trueWord => true
  | falseWord => true
  | nilWord => true
  | _ => false

end Kind

------------------------------------------------------------
-- Literals
------------------------------------------------------------

/-
  What a token says besides its lexeme.  A number written
  without a point is an exact integer; one written with a
  point is the double nearest to it.
-/
inductive Literal where
  | absent
  | bool (b : Bool)
  | text (s : String)
  | integer (n : Int)
  | decimal (x : Float)
deriving DecidableEq

------------------------------------------------------------
-- Tokens
------------------------------------------------------------

/-
  A token: its kind, the text it was written as, its
  literal, and the line on which that text starts.
-/
structure Token where
  kind : Kind
  lexeme : String
  literal : Literal
  line : Int
deriving DecidableEq

namespace Token

/- The token that ends every source. -/
def endOfInput
    (line : Int) : Token :=
  ⟨.endOfInput, "", .absent, line⟩

/- The tokens that are neither blanks nor comments. -/
def significant
    (ts : List Token) : List Token :=
  ts.filter (fun t => !t.kind.isTrivia)

end Token

end Lox
