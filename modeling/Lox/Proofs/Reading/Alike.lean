import Lox.Proofs.Reading.Progress
import Mathlib.Data.List.Forall2

/-
  Reading is decided by the kinds of tokens.

  Let the tokens of two sequences be related one by one, and
  let related tokens be of the same kind.  Then both are
  read in the same way: the trees are of the same shape,
  with related tokens in the same places, the errors are of
  the same sort and show related tokens, and what is left is
  related again.

  Key definitions include:
    * `Expr.Alike`, `Stmt.Alike`, `Decl.Alike`
    * `ParseError.Alike`
    * `Attempt.Alike`
    * `Setting.Alike`

  Key theorems include:
    * `Expr.alike_parse`
    * `Stmt.alike_parse`
    * `Decl.alike_parse`
    * `Decl.alike_parseAll`
-/

namespace Lox

variable {R : Token → Token → Prop}
variable {set set' : Setting} {depth : Nat}
variable {t t' : Token} {ts ts' : List Token}
variable {α β : Type}

------------------------------------------------------------
-- Trees
------------------------------------------------------------

/- Expressions of one shape, with related tokens. -/
inductive Expr.Alike
    (R : Token → Token → Prop) : Expr → Expr → Prop where
  | literal
      {t t' : Token}
      (hToken : R t t') :
      Alike R (.literal t) (.literal t')
  | identifier
      {t t' : Token}
      (hToken : R t t') :
      Alike R (.identifier t) (.identifier t')
  | grouping
      {e e' : Expr}
      (inner : Alike R e e') :
      Alike R (.grouping e) (.grouping e')
  | unary
      {op op' : Token} {e e' : Expr}
      (hOp : R op op')
      (inner : Alike R e e') :
      Alike R (.unary op e) (.unary op' e')
  | binary
      {op op' : Token} {left left' right right' : Expr}
      (first : Alike R left left')
      (hOp : R op op')
      (second : Alike R right right') :
      Alike R (.binary left op right)
        (.binary left' op' right')
  | logical
      {op op' : Token} {left left' right right' : Expr}
      (first : Alike R left left')
      (hOp : R op op')
      (second : Alike R right right') :
      Alike R (.logical left op right)
        (.logical left' op' right')
  | assign
      {target target' : Token} {e e' : Expr}
      (hTarget : R target target')
      (inner : Alike R e e') :
      Alike R (.assign target e) (.assign target' e')

mutual

/- Statements of one shape, with related tokens. -/
inductive Stmt.Alike
    (R : Token → Token → Prop) : Stmt → Stmt → Prop where
  | expression
      {e e' : Expr}
      (inner : Expr.Alike R e e') :
      Stmt.Alike R (.expression e) (.expression e')
  | print
      {e e' : Expr}
      (inner : Expr.Alike R e e') :
      Stmt.Alike R (.print e) (.print e')
  | ifThen
      {condition condition' : Expr} {body body' : Stmt}
      (test : Expr.Alike R condition condition')
      (first : Stmt.Alike R body body') :
      Stmt.Alike R (.ifThen condition body)
        (.ifThen condition' body')
  | ifElse
      {condition condition' : Expr}
      {body body' other other' : Stmt}
      (test : Expr.Alike R condition condition')
      (first : Stmt.Alike R body body')
      (second : Stmt.Alike R other other') :
      Stmt.Alike R (.ifElse condition body other)
        (.ifElse condition' body' other')
  | block
      {ds ds' : List Decl}
      (body : Decl.AlikeAll R ds ds') :
      Stmt.Alike R (.block ds) (.block ds')

/- Declarations of one shape, with related tokens. -/
inductive Decl.Alike
    (R : Token → Token → Prop) : Decl → Decl → Prop where
  | declare
      {name name' : Token}
      (hName : R name name') :
      Decl.Alike R (.declare name none) (.declare name' none)
  | declareWith
      {name name' : Token} {e e' : Expr}
      (hName : R name name')
      (inner : Expr.Alike R e e') :
      Decl.Alike R (.declare name (some e))
        (.declare name' (some e'))
  | statement
      {s s' : Stmt}
      (inner : Stmt.Alike R s s') :
      Decl.Alike R (.statement s) (.statement s')

/- Declarations that are alike one by one. -/
inductive Decl.AlikeAll
    (R : Token → Token → Prop) :
    List Decl → List Decl → Prop where
  | nil :
      Decl.AlikeAll R [] []
  | cons
      {d d' : Decl} {ds ds' : List Decl}
      (first : Decl.Alike R d d')
      (more : Decl.AlikeAll R ds ds') :
      Decl.AlikeAll R (d :: ds) (d' :: ds')

end

------------------------------------------------------------
-- Errors and Attempts
------------------------------------------------------------

/-
  Errors of one sort that show related tokens, each at the
  line of such a token or at the end.
-/
inductive ParseError.Alike
    (R : Token → Token → Prop)
    (set set' : Setting) :
    ParseError → ParseError → Prop where
  | unexpectedToken
      {t t' : Token}
      (hToken : R t t')
      (expected : String) :
      Alike R set set'
        ⟨t.line, .unexpectedToken t.lexeme expected⟩
        ⟨t'.line, .unexpectedToken t'.lexeme expected⟩
  | wrongToken
      {t t' : Token}
      (hToken : R t t')
      (expected : String) :
      Alike R set set'
        ⟨t.line, .wrongToken t.lexeme expected⟩
        ⟨t'.line, .wrongToken t'.lexeme expected⟩
  | endOfInput :
      Alike R set set'
        ⟨set.endLine, .endOfInput⟩
        ⟨set'.endLine, .endOfInput⟩
  | invalidTarget
      {t t' : Token} {e e' : Expr}
      (hToken : R t t')
      (target : Expr.Alike R e e') :
      Alike R set set'
        ⟨t.line, .invalidTarget (String.ofList e.chars)⟩
        ⟨t'.line, .invalidTarget (String.ofList e'.chars)⟩
  | nestingTooDeep
      {ts ts' : List Token}
      (hTokens : List.Forall₂ R ts ts')
      (limit : Int) :
      Alike R set set'
        ⟨set.lineAt ts, .nestingTooDeep limit⟩
        ⟨set'.lineAt ts', .nestingTooDeep limit⟩

/-
  Attempts that end in the same way, with trees that are the
  same in some sense, and leave related tokens.
-/
inductive Attempt.Alike
    (R : Token → Token → Prop)
    (set set' : Setting)
    (same : α → β → Prop) :
    Attempt α → Attempt β → Prop where
  | done
      {x : α} {y : β} {ts ts' : List Token}
      (hTree : same x y)
      (hRest : List.Forall₂ R ts ts') :
      Alike R set set' same (.done x ts) (.done y ts')
  | failed
      {f f' : Failure}
      (hError :
        ParseError.Alike R set set' f.error f'.error)
      (hRest : List.Forall₂ R f.rest f'.rest)
      (hOpened : f.opened = f'.opened) :
      Alike R set set' same (.failed f) (.failed f')

/-
  Settings with the same limits, for tokens of which the
  related ones are of the same kind.
-/
structure Setting.Alike
    (R : Token → Token → Prop)
    (set set' : Setting) : Prop where
  limits_eq : set'.limits = set.limits
  kind_eq : ∀ {t t'}, R t t' → t'.kind = t.kind

------------------------------------------------------------
-- Steps
------------------------------------------------------------

namespace Attempt

variable {same : α → β → Prop}

/- Failing at related tokens. -/
theorem alike_fail
    {line line' : Int}
    {cause cause' : ParseError.Cause}
    (hError :
      ParseError.Alike R set set'
        ⟨line, cause⟩ ⟨line', cause'⟩)
    (hRest : List.Forall₂ R ts ts') :
    Alike R set set' same
      (fail line cause ts) (fail line' cause' ts') :=
  .failed hError hRest rfl

/- Going on in the same way from where the first one ends. -/
theorem Alike.andThen_of_done
    {γ δ : Type}
    {same' : γ → δ → Prop}
    {a : Attempt α} {b : Attempt β}
    {next : α → List Token → Attempt γ}
    {next' : β → List Token → Attempt δ}
    (h : Alike R set set' same a b)
    (hNext :
      ∀ x y ts ts', a = .done x ts →
        same x y → List.Forall₂ R ts ts' →
          Alike R set set' same' (next x ts) (next' y ts')) :
    Alike R set set' same'
      (a.andThen next) (b.andThen next') := by
  cases h with
  | done hTree hRest => exact hNext _ _ _ _ rfl hTree hRest
  | failed hError hRest hOpened =>
      exact .failed hError hRest hOpened

/- Going on in the same way. -/
theorem Alike.andThen
    {γ δ : Type}
    {same' : γ → δ → Prop}
    {a : Attempt α} {b : Attempt β}
    {next : α → List Token → Attempt γ}
    {next' : β → List Token → Attempt δ}
    (h : Alike R set set' same a b)
    (hNext :
      ∀ x y ts ts', same x y → List.Forall₂ R ts ts' →
        Alike R set set' same' (next x ts) (next' y ts')) :
    Alike R set set' same'
      (a.andThen next) (b.andThen next') :=
  h.andThen_of_done fun x y ts ts' _ => hNext x y ts ts'

/- Blocks around both attempts do not matter. -/
theorem Alike.inBlock
    {a : Attempt α} {b : Attempt β}
    (h : Alike R set set' same a b) :
    Alike R set set' same a.inBlock b.inBlock := by
  cases h with
  | done hTree hRest => exact .done hTree hRest
  | failed hError hRest hOpened =>
      exact .failed hError hRest (congrArg (· + 1) hOpened)

/- Expecting a token. -/
theorem alike_expect
    (h : Setting.Alike R set set')
    (kind : Kind)
    (expected : String)
    (hTokens : List.Forall₂ R ts ts') :
    Alike R set set' R
      (expect set kind expected ts)
      (expect set' kind expected ts') := by
  cases hTokens with
  | nil => exact alike_fail .endOfInput .nil
  | cons hToken hMore =>
      rw [expect, expect, h.kind_eq hToken]
      split
      · exact .done hToken hMore
      · exact alike_fail (.wrongToken hToken expected)
          (.cons hToken hMore)

end Attempt

/- Related tokens are led by tokens of the same kind. -/
theorem Setting.Alike.not_head
    (h : Setting.Alike R set set')
    (leads : Kind → Bool)
    (hTokens : List.Forall₂ R ts ts')
    (hHead : ∀ t ∈ ts.head?, ¬ leads t.kind = true) :
    ∀ t ∈ ts'.head?, ¬ leads t.kind = true := by
  cases hTokens with
  | nil => exact hHead
  | @cons t _ _ _ hToken hMore =>
      rintro _ ⟨⟩
      rw [h.kind_eq hToken]
      exact hHead t rfl

/- Skipping a semicolon. -/
theorem Setting.Alike.skipSemicolon
    (h : Setting.Alike R set set')
    (hTokens : List.Forall₂ R ts ts') :
    List.Forall₂ R (skipSemicolon ts)
      (skipSemicolon ts') := by
  cases hTokens with
  | nil => exact .nil
  | cons hToken hMore =>
      rw [Lox.skipSemicolon, Lox.skipSemicolon,
        h.kind_eq hToken]
      split
      · exact hMore
      · exact .cons hToken hMore

------------------------------------------------------------
-- Expressions
------------------------------------------------------------

namespace Expr

/- Joining operands. -/
theorem alike_join
    {left left' right right' : Expr}
    (c : Chain)
    (first : Alike R left left')
    (hOp : R t t')
    (second : Alike R right right') :
    Alike R (c.join left t right)
      (c.join left' t' right') := by
  cases c with
  | disjunction => exact .logical first hOp second
  | conjunction => exact .logical first hOp second
  | equality => exact .binary first hOp second
  | comparison => exact .binary first hOp second
  | term => exact .binary first hOp second
  | factor => exact .binary first hOp second

/- Assigning a value that was read. -/
theorem alike_assignTo
    {left left' value value' : Expr}
    (hEquals : R t t')
    (hLeft : Alike R left left')
    (hValue : Alike R value value')
    (hRest : List.Forall₂ R ts ts') :
    Attempt.Alike R set set' (Alike R)
      (assignTo t left value ts)
      (assignTo t' left' value' ts') := by
  have hTarget :
      ParseError.Alike R set set'
        ⟨t.line, .invalidTarget (String.ofList left.chars)⟩
        ⟨t'.line,
          .invalidTarget (String.ofList left'.chars)⟩ :=
    .invalidTarget hEquals hLeft
  cases hLeft with
  | identifier hName => exact .done (.assign hName hValue) hRest
  | literal hToken => exact Attempt.alike_fail hTarget hRest
  | grouping inner => exact Attempt.alike_fail hTarget hRest
  | unary hOp inner => exact Attempt.alike_fail hTarget hRest
  | binary first hOp second =>
      exact Attempt.alike_fail hTarget hRest
  | logical first hOp second =>
      exact Attempt.alike_fail hTarget hRest
  | assign hName inner =>
      exact Attempt.alike_fail hTarget hRest

/- Reading expressions and chains. -/
theorem alike_parse_and_parseChain
    (h : Setting.Alike R set set') :
    (∀ level depth groups ts, ∀ ts',
      List.Forall₂ R ts ts' →
        Attempt.Alike R set set' (Alike R)
          (parse set level depth groups ts)
          (parse set' level depth groups ts')) ∧
    (∀ c left depth groups ts, ∀ left' ts',
      Alike R left left' → List.Forall₂ R ts ts' →
        Attempt.Alike R set set' (Alike R)
          (parseChain set c left depth groups ts)
          (parseChain set' c left' depth groups ts')) := by
  apply parse_induction
  case noExpressionRoom =>
    intro groups ts ts' hTokens
    rw [parse, parse, h.limits_eq]
    exact Attempt.alike_fail (.nestingTooDeep hTokens _) hTokens
  case expression =>
    intro depth groups ts ih ts' hTokens
    rw [parse, parse]
    exact ih ts' hTokens
  case assignment =>
    intro depth groups ts ihLeft ihValue ts' hTokens
    rw [parse, parse]
    apply (ihLeft ts' hTokens).andThen
    intro left left' mid mid' hLeft hMid
    cases hMid with
    | nil => exact .done hLeft .nil
    | @cons equals equals' after after' hEquals hAfter =>
        dsimp only
        rw [h.kind_eq hEquals]
        split
        · cases depth with
          | zero =>
              dsimp only
              rw [h.limits_eq]
              exact Attempt.alike_fail
                (.nestingTooDeep hAfter _) hAfter
          | succ depth =>
              apply (ihValue depth after rfl after'
                hAfter).andThen
              intro value value' rest rest' hValue hRest
              exact alike_assignTo hEquals hLeft hValue hRest
        · exact .done hLeft (.cons hEquals hAfter)
  case chain =>
    intro c depth groups ts ihOperand ihChain ts' hTokens
    rw [parse, parse]
    apply (ihOperand ts' hTokens).andThen
    intro left left' mid mid' hLeft hMid
    exact ihChain left mid left' mid' hLeft hMid
  case noOperatorRoom =>
    intro groups op ts hOp ts' hTokens
    cases hTokens with
    | @cons _ op' _ after' hToken hAfter =>
        have hOp' := h.kind_eq hToken ▸ hOp
        rw [parse_zero_of_isPrefixOperator hOp,
          parse_zero_of_isPrefixOperator hOp', h.limits_eq]
        exact Attempt.alike_fail
          (.nestingTooDeep hAfter _) hAfter
  case operator =>
    intro depth groups op ts hOp ih ts' hTokens
    cases hTokens with
    | @cons _ op' _ after' hToken hAfter =>
        have hOp' := h.kind_eq hToken ▸ hOp
        rw [parse_of_isPrefixOperator hOp,
          parse_of_isPrefixOperator hOp']
        apply (ih after' hAfter).andThen
        intro operand operand' rest rest' hOperand hRest
        exact .done (.unary hToken hOperand) hRest
  case operand =>
    intro depth groups ts hHead ih ts' hTokens
    have hHead' :=
      h.not_head Kind.isPrefixOperator hTokens hHead
    rw [parse_unary_eq_primary hHead,
      parse_unary_eq_primary hHead']
    exact ih ts' hTokens
  case missing =>
    intro depth groups ts' hTokens
    cases hTokens
    rw [parse, parse]
    exact Attempt.alike_fail .endOfInput .nil
  case literal =>
    intro depth groups t ts hLiteral ts' hTokens
    cases hTokens with
    | @cons _ t' _ after' hToken hAfter =>
        have hLiteral' := h.kind_eq hToken ▸ hLiteral
        rw [parse_of_isLiteral hLiteral,
          parse_of_isLiteral hLiteral']
        exact .done (.literal hToken) hAfter
  case identifier =>
    intro depth groups t ts hName ts' hTokens
    cases hTokens with
    | @cons _ t' _ after' hToken hAfter =>
        have hName' := h.kind_eq hToken ▸ hName
        rw [parse_of_identifier hName,
          parse_of_identifier hName']
        exact .done (.identifier hToken) hAfter
  case noGroupRoom =>
    intro depth t ts hOpening ts' hTokens
    cases hTokens with
    | @cons _ t' _ after' hToken hAfter =>
        have hOpening' := h.kind_eq hToken ▸ hOpening
        rw [parse_zero_of_leftParen hOpening,
          parse_zero_of_leftParen hOpening', h.limits_eq]
        exact Attempt.alike_fail
          (.nestingTooDeep (.cons hToken hAfter) _) hAfter
  case group =>
    intro depth groups opening ts hOpening ih ts' hTokens
    cases hTokens with
    | @cons _ t' _ after' hToken hAfter =>
        have hOpening' := h.kind_eq hToken ▸ hOpening
        rw [parse_of_leftParen hOpening,
          parse_of_leftParen hOpening']
        apply (ih after' hAfter).andThen
        intro inner inner' mid mid' hInner hMid
        apply (Attempt.alike_expect h _ _ hMid).andThen
        intro closing closing' rest rest' _ hRest
        exact .done (.grouping hInner) hRest
  case other =>
    intro depth groups t ts hLiteral hName hOpening ts'
      hTokens
    cases hTokens with
    | @cons _ t' _ after' hToken hAfter =>
        have hLiteral' := h.kind_eq hToken ▸ hLiteral
        have hName' := h.kind_eq hToken ▸ hName
        have hOpening' := h.kind_eq hToken ▸ hOpening
        rw [parse_of_not_primary hLiteral hName hOpening,
          parse_of_not_primary hLiteral' hName' hOpening']
        exact Attempt.alike_fail
          (.unexpectedToken hToken _) (.cons hToken hAfter)
  case noLinkRoom =>
    intro c left groups op ts hOp left' ts' hLeft hTokens
    cases hTokens with
    | @cons _ op' _ after' hToken hAfter =>
        have hOp' := h.kind_eq hToken ▸ hOp
        rw [parseChain_zero_of_holds hOp,
          parseChain_zero_of_holds hOp', h.limits_eq]
        exact Attempt.alike_fail
          (.nestingTooDeep hAfter _) hAfter
  case link =>
    intro c left depth groups op ts hOp ihOperand ihChain
      left' ts' hLeft hTokens
    cases hTokens with
    | @cons _ op' _ after' hToken hAfter =>
        have hOp' := h.kind_eq hToken ▸ hOp
        rw [parseChain_of_holds hOp,
          parseChain_of_holds hOp']
        apply (ihOperand after' hAfter).andThen
        intro right right' rest rest' hRight hRest
        exact ihChain right rest _ _
          (alike_join c hLeft hToken hRight) hRest
  case stop =>
    intro c left depth groups ts hHead left' ts' hLeft hTokens
    have hHead' := h.not_head c.holds hTokens hHead
    rw [parseChain_eq_done hHead, parseChain_eq_done hHead']
    exact .done hLeft hTokens

/- Reading an expression. -/
theorem alike_parse
    (h : Setting.Alike R set set')
    (level : Level)
    (depth groups : Nat)
    (hTokens : List.Forall₂ R ts ts') :
    Attempt.Alike R set set' (Alike R)
      (parse set level depth groups ts)
      (parse set' level depth groups ts') :=
  (alike_parse_and_parseChain h).1
    level depth groups ts ts' hTokens

/- Reading an expression and its end. -/
theorem alike_parseTerminated
    {same : α → β → Prop}
    {make : Expr → α}
    {make' : Expr → β}
    (h : Setting.Alike R set set')
    (hMake : ∀ e e', Alike R e e' → same (make e) (make' e'))
    (hTokens : List.Forall₂ R ts ts') :
    Attempt.Alike R set set' same
      (parseTerminated set depth make ts)
      (parseTerminated set' depth make' ts') := by
  unfold parseTerminated
  rw [h.limits_eq]
  apply (alike_parse h _ _ _ hTokens).andThen
  intro e e' rest rest' hExpr hRest
  exact .done (hMake e e' hExpr) (h.skipSemicolon hRest)

end Expr

------------------------------------------------------------
-- Statements and Declarations
------------------------------------------------------------

/- Reading what follows the word for variables. -/
theorem Decl.alike_parseVariable
    (h : Setting.Alike R set set')
    (hTokens : List.Forall₂ R ts ts') :
    Attempt.Alike R set set' (Alike R)
      (parseVariable set depth ts)
      (parseVariable set' depth ts') := by
  unfold parseVariable
  cases hTokens with
  | nil => exact Attempt.alike_fail .endOfInput .nil
  | cons hName hAfter =>
      dsimp only
      rw [h.kind_eq hName]
      split
      · cases hAfter with
        | nil => exact .done (.declare hName) .nil
        | cons hEquals hMore =>
            dsimp only
            rw [h.kind_eq hEquals]
            split
            · apply Expr.alike_parseTerminated h _ hMore
              intro e e' hExpr
              exact .declareWith hName hExpr
            · exact .done (.declare hName)
                (h.skipSemicolon (.cons hEquals hMore))
      · exact Attempt.alike_fail (.unexpectedToken hName _)
          (.cons hName hAfter)

/-
  How statements are read at a number of levels, with both
  settings.
-/
def Stmt.ReadsAlike
    (R : Token → Token → Prop)
    (set set' : Setting)
    (depth : Nat) : Prop :=
  ∀ ts ts', List.Forall₂ R ts ts' →
    Attempt.Alike R set set' (Stmt.Alike R)
      (parse set depth ts) (parse set' depth ts')

namespace Stmt.ReadsAlike

/- Declarations are read alike if statements are. -/
theorem decl
    (hStatements : ReadsAlike R set set' depth)
    (h : Setting.Alike R set set')
    (hTokens : List.Forall₂ R ts ts') :
    Attempt.Alike R set set' (Decl.Alike R)
      (Decl.parse set depth ts)
      (Decl.parse set' depth ts') := by
  have hStatement :
      Attempt.Alike R set set' (Decl.Alike R)
        ((Stmt.parse set depth ts).andThen
          fun s rest => .done (.statement s) rest)
        ((Stmt.parse set' depth ts').andThen
          fun s rest => .done (.statement s) rest) := by
    apply (hStatements ts ts' hTokens).andThen
    intro s s' rest rest' hStmt hRest
    exact .done (.statement hStmt) hRest
  cases hTokens with
  | nil =>
      rw [Decl.parse_nil, Decl.parse_nil]
      exact hStatement
  | @cons t t' us us' hToken hMore =>
      by_cases hWord : t.kind = .varWord
      · have hWord' := h.kind_eq hToken ▸ hWord
        rw [Decl.parse_of_varWord hWord,
          Decl.parse_of_varWord hWord']
        exact Decl.alike_parseVariable h hMore
      · have hWord' := h.kind_eq hToken ▸ hWord
        rw [Decl.parse_of_not_varWord hWord,
          Decl.parse_of_not_varWord hWord']
        exact hStatement

/- Blocks are read alike if statements are. -/
theorem parseBlock
    (hStatements : ReadsAlike R set set' depth)
    (h : Setting.Alike R set set')
    (hTokens : List.Forall₂ R ts ts') :
    Attempt.Alike R set set' (Decl.AlikeAll R)
      (Decl.parseBlock set depth ts)
      (Decl.parseBlock set' depth ts') := by
  induction ts using Decl.parseBlock_induction set depth
      generalizing ts' with
  | nil =>
      cases hTokens
      rw [Decl.parseBlock_nil, Decl.parseBlock_nil]
      exact Attempt.alike_fail .endOfInput .nil
  | closing t us hClosing =>
      cases hTokens with
      | cons hToken hMore =>
          have hClosing' := h.kind_eq hToken ▸ hClosing
          rw [Decl.parseBlock_of_rightBrace hClosing,
            Decl.parseBlock_of_rightBrace hClosing']
          exact .done .nil hMore
  | declaration t us hClosing ih =>
      have hFirst := hStatements.decl h hTokens
      cases hTokens with
      | cons hToken hMore =>
          have hClosing' := h.kind_eq hToken ▸ hClosing
          rw [Decl.parseBlock_of_not_rightBrace hClosing,
            Decl.parseBlock_of_not_rightBrace hClosing']
          apply hFirst.andThen_of_done
          intro d d' mid mid' hParse hDecl hMid
          apply (ih d mid hParse hMid).andThen
          intro ds ds' rest rest' hMore hRest
          exact .done (.cons hDecl hMore) hRest

/- Conditional statements are read alike if branches are. -/
theorem ifWord
    (hStatements : ReadsAlike R set set' depth)
    (h : Setting.Alike R set set')
    (hIf : t.kind = .ifWord)
    (hToken : R t t')
    (hTokens : List.Forall₂ R ts ts') :
    Attempt.Alike R set set' (Stmt.Alike R)
      (parse set (depth + 1) (t :: ts))
      (parse set' (depth + 1) (t' :: ts')) := by
  have hIf' : t'.kind = .ifWord := by rwa [h.kind_eq hToken]
  rw [parse_of_ifWord hIf, parse_of_ifWord hIf',
    h.limits_eq]
  apply (Attempt.alike_expect h _ _ hTokens).andThen
  intro opening opening' mid mid' _ hMid
  apply (Expr.alike_parse h _ _ _ hMid).andThen
  intro condition condition' mid mid' hTest hMid
  apply (Attempt.alike_expect h _ _ hMid).andThen
  intro closing closing' mid mid' _ hMid
  apply (hStatements mid mid' hMid).andThen
  intro body body' mid mid' hFirst hMid
  cases hMid with
  | nil => exact .done (.ifThen hTest hFirst) .nil
  | @cons u u' after after' hNext hAfter =>
      rw [parseOther, parseOther, h.kind_eq hNext]
      split
      · apply (hStatements after after' hAfter).andThen
        intro other other' rest rest' hSecond hRest
        exact .done (.ifElse hTest hFirst hSecond) hRest
      · exact .done (.ifThen hTest hFirst)
          (.cons hNext hAfter)

end Stmt.ReadsAlike

/- Reading a statement. -/
theorem Stmt.alike_parse
    (h : Setting.Alike R set set')
    (depth : Nat) :
    ReadsAlike R set set' depth := by
  induction depth with
  | zero =>
      intro ts ts' hTokens
      rw [parse, parse, h.limits_eq]
      exact Attempt.alike_fail
        (.nestingTooDeep hTokens _) hTokens
  | succ depth ih =>
      intro ts ts' hTokens
      have hExpression :
          Attempt.Alike R set set' (Stmt.Alike R)
            (Expr.parseTerminated set depth .expression ts)
            (Expr.parseTerminated set' depth .expression
              ts') :=
        Expr.alike_parseTerminated h
          (fun _ _ => .expression) hTokens
      cases hTokens with
      | nil =>
          rw [parse, parse]
          exact hExpression
      | @cons t t' us us' hToken hMore =>
          have hKind := h.kind_eq hToken
          by_cases hPrint : t.kind = .printWord
          · rw [parse_of_printWord hPrint,
              parse_of_printWord (hKind.trans hPrint)]
            exact Expr.alike_parseTerminated h
              (fun _ _ => .print) hMore
          by_cases hBlock : t.kind = .leftBrace
          · rw [parse_of_leftBrace hBlock,
              parse_of_leftBrace (hKind.trans hBlock)]
            apply (ih.parseBlock h hMore).inBlock.andThen
            intro ds ds' rest rest' hBody hRest
            exact .done (.block hBody) (h.skipSemicolon hRest)
          by_cases hIf : t.kind = .ifWord
          · exact ih.ifWord h hIf hToken hMore
          rw [parse_of_expression hPrint hBlock hIf,
            parse_of_expression (hKind ▸ hPrint)
              (hKind ▸ hBlock) (hKind ▸ hIf)]
          exact hExpression

/- Reading a declaration. -/
theorem Decl.alike_parse
    (h : Setting.Alike R set set')
    (depth : Nat)
    (hTokens : List.Forall₂ R ts ts') :
    Attempt.Alike R set set' (Alike R)
      (parse set depth ts) (parse set' depth ts') :=
  (Stmt.alike_parse h depth).decl h hTokens

------------------------------------------------------------
-- Programs
------------------------------------------------------------

/- Skipping to a boundary. -/
theorem Setting.Alike.resume
    (h : Setting.Alike R set set')
    (stuck : Bool)
    (opened : Nat)
    (hTokens : List.Forall₂ R ts ts') :
    List.Forall₂ R (resume stuck opened ts)
      (resume stuck opened ts') := by
  induction hTokens generalizing stuck opened with
  | nil => exact .nil
  | cons hToken hMore ih =>
      rw [resume.eq_def, resume.eq_def stuck]
      dsimp only
      rw [h.kind_eq hToken]
      split
      · exact .cons hToken hMore
      · split
        · exact ih false (opened + 1)
        · split
          · exact ih false 0
          · exact hMore
          · exact ih false _
        · split
          · exact hMore
          · exact ih false _
        · exact ih false opened

/- Boundaries after failures. -/
theorem Setting.Alike.boundary
    (h : Setting.Alike R set set')
    {f f' : Failure}
    (hRest : List.Forall₂ R f.rest f'.rest)
    (hOpened : f.opened = f'.opened)
    (hTokens : List.Forall₂ R ts ts') :
    List.Forall₂ R (f.boundary ts) (f'.boundary ts') := by
  unfold Failure.boundary
  rw [hRest.length_eq, hTokens.length_eq, hOpened]
  exact h.resume _ _ hRest

/- Declarations, or errors, that are alike. -/
inductive Decl.ItemAlike
    (R : Token → Token → Prop)
    (set set' : Setting) :
    Except ParseError Decl → Except ParseError Decl →
      Prop where
  | ok
      {d d' : Decl}
      (hDecl : Alike R d d') :
      ItemAlike R set set' (.ok d) (.ok d')
  | error
      {e e' : ParseError}
      (hError : ParseError.Alike R set set' e e') :
      ItemAlike R set set' (.error e) (.error e')

/- Programs are read alike, item by item. -/
theorem Decl.alike_parseAll
    {ts ts' : List Token}
    (h : Setting.Alike R set set')
    (hTokens : List.Forall₂ R ts ts') :
    List.Forall₂ (ItemAlike R set set')
      (parseAll set ts) (parseAll set' ts') := by
  cases hTokens with
  | nil =>
      rw [parseAll_nil, parseAll_nil]
      exact .nil
  | @cons t t' us us' hToken hMore =>
      have hTokens := List.Forall₂.cons hToken hMore
      have hFirst := alike_parse h set.limits.depthRoom hTokens
      cases hParse :
          parse set set.limits.depthRoom (t :: us) with
      | done d rest =>
          rw [hParse] at hFirst
          generalize hParse' : parse set'
            set.limits.depthRoom (t' :: us') = b at hFirst
          rw [← h.limits_eq] at hParse'
          cases hFirst with
          | done hDecl hRest =>
              rw [parseAll_of_done hParse,
                parseAll_of_done hParse']
              have hLess := length_lt_of_parse hParse
              exact .cons (.ok hDecl)
                (Decl.alike_parseAll h hRest)
      | failed f =>
          rw [hParse] at hFirst
          generalize hParse' : parse set'
            set.limits.depthRoom (t' :: us') = b at hFirst
          rw [← h.limits_eq] at hParse'
          cases hFirst with
          | failed hError hRest hOpened =>
              rw [parseAll_of_failed hParse,
                parseAll_of_failed hParse']
              have hLess := f.length_boundary_lt hParse
              exact .cons (.error hError) (Decl.alike_parseAll h
                (h.boundary hRest hOpened hTokens))
termination_by ts.length
decreasing_by
  · exact hLess
  · exact hLess

end Lox
