import Lox.Tree

/-
  The text of trees: canonical source text.

  The text of a complete tree is made of its lexemes, with
  fixed blanks between them, and reads back as the tree.  An
  open place has no text; `missing?` finds the first one.

  Key definitions include:
    * `Expr.chars`
    * `Stmt.chars`
    * `Decl.chars`
    * `Decl.sequence`
    * `Expr.missing?`
    * `Expr.text`
    * `Node.text`
    * `Node.sequenceText`
-/

namespace Lox

------------------------------------------------------------
-- Characters of Trees
------------------------------------------------------------

/- The characters of an expression. -/
def Expr.chars : Expr → List Char
  | literal t => t.lexeme.toList
  | identifier t => t.lexeme.toList
  | grouping e => '(' :: e.chars ++ [')']
  | unary op e => op.lexeme.toList ++ e.chars
  | binary left op right =>
      left.chars ++ ' ' :: op.lexeme.toList ++
        ' ' :: right.chars
  | logical left op right =>
      left.chars ++ ' ' :: op.lexeme.toList ++
        ' ' :: right.chars
  | assign target e =>
      target.lexeme.toList ++ [' ', '=', ' '] ++ e.chars
  | hole => []

/- Text with two blanks in front of each of its lines. -/
def indented
    (cs : List Char) : List Char :=
  ' ' :: ' ' ::
    cs.flatMap
      (fun c => if c = '\n' then ['\n', ' ', ' '] else [c])

mutual

/- The characters of a statement. -/
def Stmt.chars : Stmt → List Char
  | .expression e => e.chars ++ [';']
  | .print e =>
      ['p', 'r', 'i', 'n', 't', ' '] ++ e.chars ++ [';']
  | .ifThen c s =>
      ['i', 'f', ' ', '('] ++ c.chars ++ [')', ' '] ++ s.chars
  | .ifElse c s t =>
      ['i', 'f', ' ', '('] ++ c.chars ++ [')', ' '] ++
        s.chars ++ ['\n', 'e', 'l', 's', 'e', ' '] ++ t.chars
  | .block [] => ['{', '}']
  | .block (d :: ds) =>
      '{' :: '\n' :: indented d.chars ++
        Decl.blockChars ds ++ ['\n', '}']
  | .hole => []

/- The characters of a declaration. -/
def Decl.chars : Decl → List Char
  | .declare name none =>
      ['v', 'a', 'r', ' '] ++ name.lexeme.toList ++ [';']
  | .declare name (some e) =>
      ['v', 'a', 'r', ' '] ++ name.lexeme.toList ++
        [' ', '=', ' '] ++ e.chars ++ [';']
  | .statement s => s.chars
  | .hole => []

/- The further declarations of a block, each on a new line. -/
def Decl.blockChars : List Decl → List Char
  | [] => []
  | d :: ds =>
      '\n' :: indented d.chars ++ Decl.blockChars ds

end

/- The characters of declarations, each on a new line. -/
def Decl.sequence
    (ds : List Decl) : List Char :=
  ['\n'].intercalate (ds.map Decl.chars)

------------------------------------------------------------
-- Open Places
------------------------------------------------------------

/- The first open place of an expression. -/
def Expr.missing? : Expr → Option Hole
  | literal _ => none
  | identifier _ => none
  | grouping e => e.missing?
  | unary _ e => e.missing?
  | binary left _ right => left.missing?.or right.missing?
  | logical left _ right => left.missing?.or right.missing?
  | assign _ e => e.missing?
  | hole => some .expr

mutual

/- The first open place of a statement. -/
def Stmt.missing? : Stmt → Option Hole
  | .expression e => e.missing?
  | .print e => e.missing?
  | .ifThen c s => c.missing?.or s.missing?
  | .ifElse c s t =>
      c.missing?.or (s.missing?.or t.missing?)
  | .block ds => Decl.firstMissing? ds
  | .hole => some .stmt

/- The first open place of a declaration. -/
def Decl.missing? : Decl → Option Hole
  | .declare _ none => none
  | .declare _ (some e) => e.missing?
  | .statement s => s.missing?
  | .hole => some .decl

/- The first open place of several declarations. -/
def Decl.firstMissing? : List Decl → Option Hole
  | [] => none
  | d :: ds => d.missing?.or (Decl.firstMissing? ds)

end

------------------------------------------------------------
-- Text of Trees
------------------------------------------------------------

/- Text, unless a place was left open. -/
def textUnless
    (missing : Option Hole)
    (cs : List Char) : Except Fault String :=
  match missing with
  | some h => .error (.unprintable h)
  | none => .ok (String.ofList cs)

/- The text of an expression. -/
def Expr.text
    (e : Expr) : Except Fault String :=
  textUnless e.missing? e.chars

/- The text of a declaration. -/
def Decl.text
    (d : Decl) : Except Fault String :=
  textUnless d.missing? d.chars

namespace Node

/- The characters of a tree. -/
def chars : Node → List Char
  | expr e => e.chars
  | stmt s => s.chars
  | decl d => d.chars

/- The first open place of a tree. -/
def missing? : Node → Option Hole
  | expr e => e.missing?
  | stmt s => s.missing?
  | decl d => d.missing?

/- The text of a tree. -/
def text
    (n : Node) : Except Fault String :=
  textUnless n.missing? n.chars

/- The text of several trees, each on a new line. -/
def sequenceText
    (ns : List Node) : Except Fault String :=
  textUnless (ns.findSome? missing?)
    (['\n'].intercalate (ns.map chars))

end Node

end Lox
