import Lox.Tree.Level
import Lox.Tree.Parse.Attempt
import Lox.Tree.Text

/-
  Reading expressions.

  `depth` counts the levels of nesting that are left: every
  expression, operator and assignment takes one for the
  parts below it.  `groups` counts the parentheses that may
  still be opened.  The reader goes down the levels of the
  grammar, and to fewer levels of nesting wherever it starts
  over from the top, so it ends.

  Key definitions include:
    * `Expr.parse`
    * `Expr.parseChain`
-/

namespace Lox

namespace Expr

/-
  Assign a value that was read, if what stands before the
  equality sign can be assigned to.
-/
def assignTo
    (equals : Token)
    (left value : Expr)
    (rest : List Token) : Attempt Expr :=
  match left with
  | identifier name => .done (assign name value) rest
  | _ =>
      .fail equals.line
        (.invalidTarget (String.ofList left.chars)) rest

mutual

/- Read an expression of a given level. -/
def parse
    (set : Setting)
    (level : Level)
    (depth groups : Nat)
    (ts : List Token) : Attempt Expr :=
  match level with
  | .expression =>
      match depth with
      | 0 =>
          .fail (set.lineAt ts)
            (.nestingTooDeep set.limits.depth) ts
      | depth + 1 => parse set .assignment depth groups ts
  | .assignment =>
      (parse set (.chain .disjunction) depth groups ts).andThen
        fun left rest =>
          match rest with
          | [] => .done left []
          | equals :: after =>
              if equals.kind = .equal then
                match depth with
                | 0 =>
                    .fail (set.lineAt after)
                      (.nestingTooDeep set.limits.depth) after
                | depth + 1 =>
                    (parse set .assignment
                        depth groups after).andThen
                      (assignTo equals left)
              else .done left (equals :: after)
  | .chain c =>
      (parse set c.operand depth groups ts).andThen
        fun left rest =>
          parseChain set c left depth groups rest
  | .unary =>
      match ts with
      | [] => parse set .primary depth groups []
      | op :: rest =>
          if op.kind.isPrefixOperator then
            match depth with
            | 0 =>
                .fail (set.lineAt rest)
                  (.nestingTooDeep set.limits.depth) rest
            | depth + 1 =>
                (parse set .unary depth groups rest).andThen
                  fun operand rest =>
                    .done (.unary op operand) rest
          else parse set .primary depth groups (op :: rest)
  | .primary =>
      match ts with
      | [] => .fail set.endLine .endOfInput []
      | t :: rest =>
          if t.kind.isLiteral then .done (.literal t) rest
          else if t.kind = .identifier then
            .done (.identifier t) rest
          else if t.kind = .leftParen then
            match groups with
            | 0 =>
                .fail t.line
                  (.nestingTooDeep set.limits.groups) rest
            | groups + 1 =>
                (parse set .expression
                    depth groups rest).andThen
                  fun inner rest =>
                    (Attempt.expect set .rightParen ")"
                        rest).andThen
                      fun _ rest =>
                        .done (.grouping inner) rest
          else
            .fail t.line
              (.unexpectedToken t.lexeme "an expression")
              (t :: rest)
termination_by 10 * depth + level.rank
decreasing_by
  · simp only [Level.rank]
    omega
  · simp only [Level.rank]
    omega
  · simp only [Level.rank]
    omega
  · have := Level.rank_operand_lt c
    omega
  · have := Level.rank_chain_pos c
    omega
  · simp only [Level.rank]
    omega
  · simp only [Level.rank]
    omega
  · simp only [Level.rank]
    omega
  · simp only [Level.rank]
    omega

/- Go on with a chain after its first operands. -/
def parseChain
    (set : Setting)
    (c : Chain)
    (left : Expr)
    (depth groups : Nat)
    (ts : List Token) : Attempt Expr :=
  match ts with
  | [] => .done left []
  | op :: rest =>
      if c.holds op.kind then
        match depth with
        | 0 =>
            .fail (set.lineAt rest)
              (.nestingTooDeep set.limits.depth) rest
        | depth + 1 =>
            (parse set c.operand depth groups rest).andThen
              fun right rest =>
                parseChain set c (c.join left op right)
                  depth groups rest
      else .done left (op :: rest)
termination_by 10 * depth
decreasing_by
  · have := Level.rank_operand_le c
    omega
  · omega

end

end Expr

end Lox
