import Lox.Proofs.Grammar.Expr

/-
  The grammar of statements and declarations, as a relation
  between token sequences and trees.

  A semicolon may end most statements, or be left out; the
  canonical text of a program has one after each simple
  statement and none after a block.  The relation takes the
  choice as a parameter.  An `else` belongs to the nearest
  statement that lacks one, so the first branch of a
  statement with two of them never ends open.

  Key definitions include:
    * `Endings`
    * `Stmt.endsOpen`
    * `Stmt.Derives`
    * `Decl.Derives`
    * `Decl.DerivesAll`

  Key theorems include:
    * `Stmt.Derives.eq_cons`
    * `Decl.Derives.eq_cons`
-/

namespace Lox

------------------------------------------------------------
-- Endings
------------------------------------------------------------

/- The tokens that end simple statements, and blocks. -/
structure Endings where
  simple : List Token → Prop
  block : List Token → Prop

/- One token of a kind, and nothing else. -/
def IsOne
    (k : Kind)
    (ts : List Token) : Prop :=
  ∃ t, ts = [t] ∧ t.kind = k

namespace Endings

/- A semicolon may be written or left out. -/
def optional : Endings where
  simple ts := ts = [] ∨ IsOne .semicolon ts
  block ts := ts = [] ∨ IsOne .semicolon ts

/- A semicolon is written after simple statements only. -/
def canonical : Endings where
  simple ts := IsOne .semicolon ts
  block ts := ts = []

end Endings

------------------------------------------------------------
-- Derivations
------------------------------------------------------------

/-
  Whether an `else` after a statement would belong to it.
-/
def Stmt.endsOpen : Stmt → Bool
  | .ifThen _ _ => true
  | .ifElse _ _ other => other.endsOpen
  | _ => false

mutual

/-
  Tokens that form a statement, within some levels of
  nesting and some parentheses.
-/
inductive Stmt.Derives
    (endings : Endings)
    (groups : Nat) :
    Nat → List Token → Stmt → Prop where
  | expression
      {depth : Nat} {ts us : List Token} {e : Expr}
      (inner : Expr.Derives .expression depth groups ts e)
      (hEnd : endings.simple us) :
      Stmt.Derives endings groups (depth + 1)
        (ts ++ us) (.expression e)
  | print
      {depth : Nat} {ts us : List Token} {e : Expr}
      {word : Token}
      (hWord : word.kind = .printWord)
      (inner : Expr.Derives .expression depth groups ts e)
      (hEnd : endings.simple us) :
      Stmt.Derives endings groups (depth + 1)
        (word :: ts ++ us) (.print e)
  | block
      {depth : Nat} {ts us : List Token} {ds : List Decl}
      {opening closing : Token}
      (hOpening : opening.kind = .leftBrace)
      (body : Decl.DerivesAll endings groups depth ts ds)
      (hClosing : closing.kind = .rightBrace)
      (hEnd : endings.block us) :
      Stmt.Derives endings groups (depth + 1)
        (opening :: ts ++ closing :: us) (.block ds)
  | ifThen
      {depth : Nat} {ts us : List Token}
      {condition : Expr} {body : Stmt}
      {word opening closing : Token}
      (hWord : word.kind = .ifWord)
      (hOpening : opening.kind = .leftParen)
      (test :
        Expr.Derives .expression depth groups ts condition)
      (hClosing : closing.kind = .rightParen)
      (first : Stmt.Derives endings groups depth us body) :
      Stmt.Derives endings groups (depth + 1)
        (word :: opening :: ts ++ closing :: us)
        (.ifThen condition body)
  | ifElse
      {depth : Nat} {ts us vs : List Token}
      {condition : Expr} {body other : Stmt}
      {word opening closing separator : Token}
      (hWord : word.kind = .ifWord)
      (hOpening : opening.kind = .leftParen)
      (test :
        Expr.Derives .expression depth groups ts condition)
      (hClosing : closing.kind = .rightParen)
      (first : Stmt.Derives endings groups depth us body)
      (hBody : body.endsOpen = false)
      (hSeparator : separator.kind = .elseWord)
      (second : Stmt.Derives endings groups depth vs other) :
      Stmt.Derives endings groups (depth + 1)
        (word :: opening :: ts ++ closing :: us ++
          separator :: vs)
        (.ifElse condition body other)

/- Tokens that form a declaration. -/
inductive Decl.Derives
    (endings : Endings)
    (groups : Nat) :
    Nat → List Token → Decl → Prop where
  | declare
      {depth : Nat} {us : List Token} {word name : Token}
      (hWord : word.kind = .varWord)
      (hName : name.kind = .identifier)
      (hEnd : endings.simple us) :
      Decl.Derives endings groups depth
        (word :: name :: us) (.declare name none)
  | declareWith
      {depth : Nat} {ts us : List Token} {e : Expr}
      {word name equals : Token}
      (hWord : word.kind = .varWord)
      (hName : name.kind = .identifier)
      (hEquals : equals.kind = .equal)
      (inner : Expr.Derives .expression depth groups ts e)
      (hEnd : endings.simple us) :
      Decl.Derives endings groups depth
        (word :: name :: equals :: ts ++ us)
        (.declare name (some e))
  | statement
      {depth : Nat} {ts : List Token} {s : Stmt}
      (inner : Stmt.Derives endings groups depth ts s) :
      Decl.Derives endings groups depth ts (.statement s)

/- Tokens that form declarations, one after the other. -/
inductive Decl.DerivesAll
    (endings : Endings)
    (groups : Nat) :
    Nat → List Token → List Decl → Prop where
  | nil
      {depth : Nat} :
      Decl.DerivesAll endings groups depth [] []
  | cons
      {depth : Nat} {ts us : List Token}
      {d : Decl} {ds : List Decl}
      (first : Decl.Derives endings groups depth ts d)
      (more : Decl.DerivesAll endings groups depth us ds) :
      Decl.DerivesAll endings groups depth
        (ts ++ us) (d :: ds)

end

variable {endings : Endings} {depth groups : Nat}
variable {ts : List Token}

------------------------------------------------------------
-- First Tokens
------------------------------------------------------------

/- The kinds of tokens that a statement can start with. -/
def Kind.startsStmt
    (k : Kind) : Bool :=
  k.startsExpr || k == .printWord || k == .leftBrace ||
    k == .ifWord

/- The kinds of tokens that a declaration can start with. -/
def Kind.startsDecl
    (k : Kind) : Bool :=
  k.startsStmt || k == .varWord

/- A statement has a first token, of a fitting kind. -/
theorem Stmt.Derives.eq_cons
    {s : Stmt}
    (h : Stmt.Derives endings groups depth ts s) :
    ∃ t us, ts = t :: us ∧ t.kind.startsStmt = true := by
  cases h with
  | expression inner hEnd =>
      rcases inner.eq_cons with ⟨t, us, rfl, ht⟩
      exact ⟨t, _, rfl, by simp [Kind.startsStmt, ht]⟩
  | print hWord inner hEnd =>
      exact ⟨_, _, rfl, by simp [Kind.startsStmt, hWord]⟩
  | block hOpening body hClosing hEnd =>
      exact ⟨_, _, rfl, by simp [Kind.startsStmt, hOpening]⟩
  | ifThen hWord hOpening test hClosing first =>
      exact ⟨_, _, rfl, by simp [Kind.startsStmt, hWord]⟩
  | ifElse hWord hOpening test hClosing first hBody =>
      exact ⟨_, _, rfl, by simp [Kind.startsStmt, hWord]⟩

/- A declaration has a first token, of a fitting kind. -/
theorem Decl.Derives.eq_cons
    {d : Decl}
    (h : Decl.Derives endings groups depth ts d) :
    ∃ t us, ts = t :: us ∧ t.kind.startsDecl = true := by
  cases h with
  | declare hWord hName hEnd =>
      exact ⟨_, _, rfl, by simp [Kind.startsDecl, hWord]⟩
  | declareWith hWord hName hEquals inner hEnd =>
      exact ⟨_, _, rfl, by simp [Kind.startsDecl, hWord]⟩
  | statement inner =>
      rcases inner.eq_cons with ⟨t, us, rfl, ht⟩
      exact ⟨t, us, rfl, by simp [Kind.startsDecl, ht]⟩

end Lox
