import Lox.Tree.Parse.Expr

/-
  Reading statements and declarations.

  A statement takes one level of nesting for its parts, so
  that reading one ends.  The declarations of a block all
  get the same levels; reading them ends because each of
  them consumes a token.

  Key definitions include:
    * `Decl.parseVariable`
    * `Decl.parseWith`
    * `Decl.parseBlockWith`
    * `Stmt.parse`
    * `Decl.parse`
-/

namespace Lox

------------------------------------------------------------
-- Simple Statements
------------------------------------------------------------

/- Read an expression and the semicolon it may end with. -/
def Expr.parseTerminated
    {α : Type}
    (set : Setting)
    (depth : Nat)
    (make : Expr → α)
    (ts : List Token) : Attempt α :=
  (Expr.parse set .expression depth set.limits.groupRoom
      ts).andThen
    fun e rest => .done (make e) (skipSemicolon rest)

/- Read what follows the word that declares a variable. -/
def Decl.parseVariable
    (set : Setting)
    (depth : Nat)
    (ts : List Token) : Attempt Decl :=
  match ts with
  | [] => .fail set.endLine .endOfInput []
  | name :: rest =>
      if name.kind = .identifier then
        match rest with
        | [] => .done (.declare name none) []
        | equals :: after =>
            if equals.kind = .equal then
              Expr.parseTerminated set depth
                (fun e => .declare name (some e)) after
            else
              .done (.declare name none)
                (skipSemicolon (equals :: after))
      else
        .fail name.line
          (.unexpectedToken name.lexeme "a variable name")
          (name :: rest)

------------------------------------------------------------
-- Declarations and Blocks
------------------------------------------------------------

/-
  Read a declaration, given how statements are read.
-/
def Decl.parseWith
    (set : Setting)
    (depth : Nat)
    (statement : List Token → Attempt Stmt)
    (ts : List Token) : Attempt Decl :=
  match ts with
  | [] =>
      (statement []).andThen
        fun s rest => .done (.statement s) rest
  | t :: rest =>
      if t.kind = .varWord then
        Decl.parseVariable set depth rest
      else
        (statement (t :: rest)).andThen
          fun s rest => .done (.statement s) rest

/-
  Read the declarations of a block and its end, given how
  declarations are read.
-/
def Decl.parseBlockWith
    (set : Setting)
    (declaration : List Token → Attempt Decl)
    (ts : List Token) : Attempt (List Decl) :=
  match ts with
  | [] => .fail set.endLine .endOfInput []
  | t :: rest =>
      if t.kind = .rightBrace then .done [] rest
      else
        (declaration (t :: rest)).andThen
          fun d after =>
            if _h : after.length < (t :: rest).length then
              (parseBlockWith set declaration after).andThen
                fun ds rest => .done (d :: ds) rest
            else .done [d] after
termination_by ts.length
decreasing_by exact _h

------------------------------------------------------------
-- Statements
------------------------------------------------------------

/- Read a statement. -/
def Stmt.parse
    (set : Setting) :
    (depth : Nat) → List Token → Attempt Stmt
  | 0, ts =>
      .fail (set.lineAt ts)
        (.nestingTooDeep set.limits.depth) ts
  | depth + 1, [] =>
      Expr.parseTerminated set depth .expression []
  | depth + 1, t :: rest =>
      if t.kind = .printWord then
        Expr.parseTerminated set depth .print rest
      else if t.kind = .leftBrace then
        (Decl.parseBlockWith set
            (Decl.parseWith set depth (Stmt.parse set depth))
            rest).inBlock.andThen
          fun body rest =>
            .done (.block body) (skipSemicolon rest)
      else if t.kind = .ifWord then
        (Attempt.expect set .leftParen "(" rest).andThen
          fun _ rest =>
        (Expr.parse set .expression depth
            set.limits.groupRoom rest).andThen
          fun condition rest =>
        (Attempt.expect set .rightParen ")" rest).andThen
          fun _ rest =>
        (Stmt.parse set depth rest).andThen
          fun body rest =>
            match rest with
            | [] => .done (.ifThen condition body) []
            | t :: after =>
                if t.kind = .elseWord then
                  (Stmt.parse set depth after).andThen
                    fun other rest =>
                      .done (.ifElse condition body other) rest
                else
                  .done (.ifThen condition body) (t :: after)
      else
        Expr.parseTerminated set depth .expression (t :: rest)

/- Read a declaration. -/
def Decl.parse
    (set : Setting)
    (depth : Nat)
    (ts : List Token) : Attempt Decl :=
  Decl.parseWith set depth (Stmt.parse set depth) ts

/- Read the declarations of a block, and its end. -/
def Decl.parseBlock
    (set : Setting)
    (depth : Nat)
    (ts : List Token) : Attempt (List Decl) :=
  Decl.parseBlockWith set (Decl.parse set depth) ts

end Lox
