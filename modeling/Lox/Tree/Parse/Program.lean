import Lox.Tree.Parse.Decl

/-
  Reading programs.

  A program is read declaration by declaration.  Where one
  fails, reading resumes at the next boundary, so that a
  program with several mistakes shows several errors.

  Key definitions include:
    * `resume`
    * `Failure.boundary`
    * `Decl.parseAll`
    * `Decl.program`
-/

namespace Lox

------------------------------------------------------------
-- Boundaries
------------------------------------------------------------

/-
  Skip tokens up to a boundary: a semicolon, the start of a
  statement, or the end of a block opened on the way.  While
  `opened` blocks are to be closed, only their end counts.
  The first token is skipped in any case if `stuck`.
-/
def resume
    (stuck : Bool)
    (opened : Nat) : List Token → List Token
  | [] => []
  | t :: rest =>
      if !stuck && opened == 0 && t.kind.startsStatement then
        t :: rest
      else
        match t.kind with
        | .leftBrace => resume false (opened + 1) rest
        | .rightBrace =>
            match opened with
            | 0 => resume false 0 rest
            | 1 => rest
            | opened + 2 => resume false (opened + 1) rest
        | .semicolon =>
            match opened with
            | 0 => rest
            | opened + 1 => resume false (opened + 1) rest
        | _ => resume false opened rest

/-
  The boundary after a failed attempt that began at `start`.
  An attempt that consumed nothing is stuck.
-/
def Failure.boundary
    (f : Failure)
    (start : List Token) : List Token :=
  resume (f.rest.length == start.length) f.opened f.rest

------------------------------------------------------------
-- Programs
------------------------------------------------------------

namespace Decl

/-
  Read declarations up to the end: a declaration or an error
  for each attempt.  Every attempt consumes a token.
-/
def parseAll
    (set : Setting)
    (ts : List Token) : List (Except ParseError Decl) :=
  match ts with
  | [] => []
  | t :: more =>
      match Decl.parse set set.limits.depthRoom (t :: more) with
      | .done d rest =>
          .ok d ::
            if _h : rest.length < (t :: more).length then
              parseAll set rest
            else []
      | .failed f =>
          .error f.error ::
            if _h :
                (f.boundary (t :: more)).length <
                  (t :: more).length then
              parseAll set (f.boundary (t :: more))
            else []
termination_by ts.length
decreasing_by
  · exact _h
  · exact _h

/- The tokens before the first one that ends the input. -/
def body
    (ts : List Token) : List Token :=
  ts.takeWhile (fun t => t.kind != .endOfInput)

/-
  The line on which tokens end: that of the token that ends
  the input, of the last token if there is none such, and 1
  if there is no token at all.
-/
def endLine
    (ts : List Token) : Int :=
  match ts.find? (fun t => t.kind == .endOfInput) with
  | some t => t.line
  | none =>
      match ts.getLast? with
      | some t => t.line
      | none => 1

/- Read the program that tokens form, within limits. -/
def programWithin
    (limits : Limits)
    (ts : List Token) : List (Except ParseError Decl) :=
  parseAll ⟨limits, endLine ts⟩ (body ts)

/- Read the program that tokens form. -/
def program
    (ts : List Token) : List (Except ParseError Decl) :=
  programWithin .standard ts

/- The declarations that were read. -/
def declarationsOf
    (items : List (Except ParseError Decl)) : List Decl :=
  items.filterMap Except.toOption

/- The errors that were met. -/
def errorsOf
    (items : List (Except ParseError Decl)) :
    List ParseError :=
  items.filterMap
    (fun
      | .ok _ => none
      | .error e => some e)

end Decl

end Lox
