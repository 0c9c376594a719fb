import Lox.Proofs.Reading.Recovery

/-
  Reading within narrower limits.

  Limits only cut reading off.  Within narrower limits, an
  attempt either ends as it does within the wider ones, or
  fails because it is nested too deep.  A program is then
  read the same up to the first such failure, and as a whole
  if there is none: what came before, be it read or not,
  takes nothing away from the levels of what comes after.

  Key definitions include:
    * `ParseError.isTooDeep`
    * `Attempt.Narrows`
    * `Setting.Narrows`
    * `Decl.ItemsNarrow`

  Key theorems include:
    * `Expr.narrows_parse`
    * `Stmt.narrows_parse`
    * `Decl.narrows_parse`
    * `Decl.narrow_parseAll`
    * `Decl.programWithin_of_narrower`
-/

namespace Lox

variable {set set' : Setting}
variable {depth depth' groups groups' : Nat}
variable {t : Token} {ts : List Token}
variable {α β : Type}

------------------------------------------------------------
-- Errors
------------------------------------------------------------

/- Whether an error is about nesting. -/
def ParseError.isTooDeep
    (e : ParseError) : Bool :=
  match e.cause with
  | .nestingTooDeep _ => true
  | _ => false

/- Whether an item of a program is an error about nesting. -/
def Decl.isTooDeep : Except ParseError Decl → Bool
  | .ok _ => false
  | .error e => e.isTooDeep

------------------------------------------------------------
-- Attempts
------------------------------------------------------------

/-
  An attempt within narrower limits, and the same one within
  wider limits: it ends in the same way, or is cut off.
-/
inductive Attempt.Narrows :
    Attempt α → Attempt α → Prop where
  | same
      (a : Attempt α) :
      Narrows a a
  | cut
      {f : Failure}
      (hDeep : f.error.isTooDeep = true)
      (a : Attempt α) :
      Narrows (.failed f) a

namespace Attempt

/- A failure for want of levels is cut off. -/
theorem narrows_fail
    (line limit : Int)
    (rest : List Token)
    (a : Attempt α) :
    Narrows (fail line (.nestingTooDeep limit) rest) a :=
  .cut rfl a

/- Going on within narrower limits where the first one ends. -/
theorem Narrows.andThen_of_done
    {a b : Attempt α}
    {next next' : α → List Token → Attempt β}
    (h : Narrows a b)
    (hNext :
      ∀ x ts, a = .done x ts →
        Narrows (next x ts) (next' x ts)) :
    Narrows (a.andThen next) (b.andThen next') := by
  cases h with
  | same =>
      cases a with
      | done x ts => exact hNext x ts rfl
      | failed f => exact .same _
  | cut hDeep => exact .cut hDeep _

/- Going on within narrower limits. -/
theorem Narrows.andThen
    {a b : Attempt α}
    {next next' : α → List Token → Attempt β}
    (h : Narrows a b)
    (hNext : ∀ x ts, Narrows (next x ts) (next' x ts)) :
    Narrows (a.andThen next) (b.andThen next') :=
  h.andThen_of_done fun x ts _ => hNext x ts

/- A block around the attempts does not matter. -/
theorem Narrows.inBlock
    {a b : Attempt α}
    (h : Narrows a b) :
    Narrows a.inBlock b.inBlock := by
  cases h with
  | same => exact .same _
  | @cut f hDeep =>
      exact .cut (f := { f with opened := f.opened + 1 })
        hDeep _

end Attempt

/- Settings that differ in their limits: the first are lower. -/
structure Setting.Narrows
    (set set' : Setting) : Prop where
  depth_le : set.limits.depth ≤ set'.limits.depth
  groups_le : set.limits.groups ≤ set'.limits.groups
  endLine_eq : set.endLine = set'.endLine

/- Lower limits leave less room for whole programs. -/
theorem Setting.Narrows.depthRoom_le
    (h : Narrows set set') :
    set.limits.depthRoom ≤ set'.limits.depthRoom :=
  Int.toNat_le_toNat h.depth_le

/- Lower limits leave less room for parentheses. -/
theorem Setting.Narrows.groupRoom_le
    (h : Narrows set set') :
    set.limits.groupRoom ≤ set'.limits.groupRoom :=
  Int.toNat_le_toNat h.groups_le

/- Expecting a token does not depend on limits. -/
theorem Setting.Narrows.expect_eq
    (h : Narrows set set')
    (kind : Kind)
    (expected : String)
    (ts : List Token) :
    Attempt.expect set kind expected ts =
      Attempt.expect set' kind expected ts := by
  cases ts with
  | nil => rw [Attempt.expect, Attempt.expect, h.endLine_eq]
  | cons t ts => rfl

------------------------------------------------------------
-- Expressions
------------------------------------------------------------

namespace Expr

open Attempt

/-
  Expressions, and chains, with no more levels than others
  have.  Where the narrower reader has a level left, so has
  the wider one, and both go on with one level less.
-/
theorem narrows_parse_and_parseChain
    (h : Setting.Narrows set set') :
    (∀ level depth groups ts, ∀ depth' groups',
      depth ≤ depth' → groups ≤ groups' →
        Narrows (parse set level depth groups ts)
          (parse set' level depth' groups' ts)) ∧
    (∀ c left depth groups ts, ∀ depth' groups',
      depth ≤ depth' → groups ≤ groups' →
        Narrows (parseChain set c left depth groups ts)
          (parseChain set' c left depth' groups' ts)) := by
  apply parse_induction
  case noExpressionRoom =>
    intro groups ts depth' groups' _ _
    rw [parse]
    exact narrows_fail _ _ _ _
  case expression =>
    intro depth groups ts ih depth' groups' hDepth hGroups
    cases depth' with
    | zero => cases hDepth
    | succ depth' =>
        rw [parse, parse]
        exact ih depth' groups'
          (Nat.le_of_succ_le_succ hDepth) hGroups
  case assignment =>
    intro depth groups ts ihLeft ihValue depth' groups' hDepth
      hGroups
    rw [parse, parse]
    apply (ihLeft depth' groups' hDepth hGroups).andThen
    intro left mid
    cases mid with
    | nil => exact .same _
    | cons equals after =>
        dsimp only
        split
        · cases depth with
          | zero => exact narrows_fail _ _ _ _
          | succ depth =>
              cases depth' with
              | zero => cases hDepth
              | succ depth' =>
                  apply (ihValue depth after rfl depth' groups'
                    (Nat.le_of_succ_le_succ hDepth)
                    hGroups).andThen
                  exact fun value rest => .same _
        · exact .same _
  case chain =>
    intro c depth groups ts ihOperand ihChain depth' groups'
      hDepth hGroups
    rw [parse, parse]
    apply (ihOperand depth' groups' hDepth hGroups).andThen
    intro left mid
    exact ihChain left mid depth' groups' hDepth hGroups
  case noOperatorRoom =>
    intro groups op ts hOp depth' groups' _ _
    rw [parse_zero_of_isPrefixOperator hOp]
    exact narrows_fail _ _ _ _
  case operator =>
    intro depth groups op ts hOp ih depth' groups' hDepth
      hGroups
    cases depth' with
    | zero => cases hDepth
    | succ depth' =>
        rw [parse_of_isPrefixOperator hOp,
          parse_of_isPrefixOperator hOp]
        apply (ih depth' groups'
          (Nat.le_of_succ_le_succ hDepth) hGroups).andThen
        exact fun operand rest => .same _
  case operand =>
    intro depth groups ts hHead ih depth' groups' hDepth
      hGroups
    rw [parse_unary_eq_primary hHead,
      parse_unary_eq_primary hHead]
    exact ih depth' groups' hDepth hGroups
  case missing =>
    intro depth groups depth' groups' _ _
    rw [parse, parse, h.endLine_eq]
    exact .same _
  case literal =>
    intro depth groups t ts hLiteral depth' groups' _ _
    rw [parse_of_isLiteral hLiteral,
      parse_of_isLiteral hLiteral]
    exact .same _
  case identifier =>
    intro depth groups t ts hName depth' groups' _ _
    rw [parse_of_identifier hName, parse_of_identifier hName]
    exact .same _
  case noGroupRoom =>
    intro depth t ts hOpening depth' groups' _ _
    rw [parse_zero_of_leftParen hOpening]
    exact narrows_fail _ _ _ _
  case group =>
    intro depth groups opening ts hOpening ih depth' groups'
      hDepth hGroups
    cases groups' with
    | zero => cases hGroups
    | succ groups' =>
        rw [parse_of_leftParen hOpening,
          parse_of_leftParen hOpening]
        apply (ih depth' groups' hDepth
          (Nat.le_of_succ_le_succ hGroups)).andThen
        intro inner mid
        rw [h.expect_eq]
        exact .same _
  case other =>
    intro depth groups t ts hLiteral hName hOpening depth'
      groups' _ _
    rw [parse_of_not_primary hLiteral hName hOpening,
      parse_of_not_primary hLiteral hName hOpening]
    exact .same _
  case noLinkRoom =>
    intro c left groups op ts hOp depth' groups' _ _
    rw [parseChain_zero_of_holds hOp]
    exact narrows_fail _ _ _ _
  case link =>
    intro c left depth groups op ts hOp ihOperand ihChain
      depth' groups' hDepth hGroups
    cases depth' with
    | zero => cases hDepth
    | succ depth' =>
        have hDepth := Nat.le_of_succ_le_succ hDepth
        rw [parseChain_of_holds hOp, parseChain_of_holds hOp]
        apply
          (ihOperand depth' groups' hDepth hGroups).andThen
        intro right rest
        exact ihChain right rest depth' groups' hDepth hGroups
  case stop =>
    intro c left depth groups ts hHead depth' groups' _ _
    rw [parseChain_eq_done hHead, parseChain_eq_done hHead]
    exact .same _

/- Reading an expression with no more levels. -/
theorem narrows_parse
    (h : Setting.Narrows set set')
    (level : Level)
    (hDepth : depth ≤ depth')
    (hGroups : groups ≤ groups')
    (ts : List Token) :
    Narrows (parse set level depth groups ts)
      (parse set' level depth' groups' ts) :=
  (narrows_parse_and_parseChain h).1 level depth groups ts
    depth' groups' hDepth hGroups

/- Reading an expression and its end with no more levels. -/
theorem narrows_parseTerminated
    (h : Setting.Narrows set set')
    (hDepth : depth ≤ depth')
    (make : Expr → α)
    (ts : List Token) :
    Narrows (parseTerminated set depth make ts)
      (parseTerminated set' depth' make ts) := by
  unfold parseTerminated
  apply (narrows_parse h .expression hDepth h.groupRoom_le
    ts).andThen
  exact fun e rest => .same _

end Expr

------------------------------------------------------------
-- Statements and Declarations
------------------------------------------------------------

open Attempt

/- What follows the word for variables, with no more levels. -/
theorem Decl.narrows_parseVariable
    (h : Setting.Narrows set set')
    (hDepth : depth ≤ depth')
    (ts : List Token) :
    Narrows (parseVariable set depth ts)
      (parseVariable set' depth' ts) := by
  unfold parseVariable
  cases ts with
  | nil =>
      dsimp only
      rw [h.endLine_eq]
      exact .same _
  | cons name rest =>
      dsimp only
      split
      · cases rest with
        | nil => exact .same _
        | cons equals after =>
            dsimp only
            split
            · exact Expr.narrows_parseTerminated h hDepth _ _
            · exact .same _
      · exact .same _

/-
  How statements are read with some levels, within narrower
  and within wider limits.
-/
def Stmt.ReadsNarrowly
    (set set' : Setting)
    (depth depth' : Nat) : Prop :=
  ∀ ts, Narrows (parse set depth ts) (parse set' depth' ts)

namespace Stmt.ReadsNarrowly

/- Declarations are cut off at most if statements are. -/
theorem decl
    (hStatements : ReadsNarrowly set set' depth depth')
    (h : Setting.Narrows set set')
    (hDepth : depth ≤ depth')
    (ts : List Token) :
    Narrows (Decl.parse set depth ts)
      (Decl.parse set' depth' ts) := by
  have hStatement :
      Narrows
        ((Stmt.parse set depth ts).andThen
          fun s rest => .done (Decl.statement s) rest)
        ((Stmt.parse set' depth' ts).andThen
          fun s rest => .done (Decl.statement s) rest) :=
    (hStatements ts).andThen fun s rest => .same _
  cases ts with
  | nil =>
      rw [Decl.parse_nil, Decl.parse_nil]
      exact hStatement
  | cons t us =>
      by_cases hWord : t.kind = .varWord
      · rw [Decl.parse_of_varWord hWord,
          Decl.parse_of_varWord hWord]
        exact Decl.narrows_parseVariable h hDepth us
      · rw [Decl.parse_of_not_varWord hWord,
          Decl.parse_of_not_varWord hWord]
        exact hStatement

/- So are blocks. -/
theorem parseBlock
    (hStatements : ReadsNarrowly set set' depth depth')
    (h : Setting.Narrows set set')
    (hDepth : depth ≤ depth')
    (ts : List Token) :
    Narrows (Decl.parseBlock set depth ts)
      (Decl.parseBlock set' depth' ts) := by
  induction ts using Decl.parseBlock_induction set depth with
  | nil =>
      rw [Decl.parseBlock_nil, Decl.parseBlock_nil,
        h.endLine_eq]
      exact .same _
  | closing t us hClosing =>
      rw [Decl.parseBlock_of_rightBrace hClosing,
        Decl.parseBlock_of_rightBrace hClosing]
      exact .same _
  | declaration t us hClosing ih =>
      rw [Decl.parseBlock_of_not_rightBrace hClosing,
        Decl.parseBlock_of_not_rightBrace hClosing]
      apply (hStatements.decl h hDepth (t :: us)).andThen_of_done
      intro d after hParse
      apply (ih d after hParse).andThen
      exact fun ds rest => .same _

/- So are conditional statements. -/
theorem ifWord
    (hStatements : ReadsNarrowly set set' depth depth')
    (h : Setting.Narrows set set')
    (hDepth : depth ≤ depth')
    (hIf : t.kind = .ifWord)
    (ts : List Token) :
    Narrows (parse set (depth + 1) (t :: ts))
      (parse set' (depth' + 1) (t :: ts)) := by
  rw [parse_of_ifWord hIf, parse_of_ifWord hIf, h.expect_eq]
  apply (Narrows.same _).andThen
  intro opening mid
  apply (Expr.narrows_parse h .expression hDepth
    h.groupRoom_le mid).andThen
  intro condition mid
  rw [h.expect_eq]
  apply (Narrows.same _).andThen
  intro closing mid
  apply (hStatements mid).andThen
  intro body mid
  cases mid with
  | nil => exact .same _
  | cons u after =>
      rw [parseOther, parseOther]
      split
      · apply (hStatements after).andThen
        exact fun other rest => .same _
      · exact .same _

end Stmt.ReadsNarrowly

/- Reading a statement with no more levels. -/
theorem Stmt.narrows_parse
    (h : Setting.Narrows set set')
    (hDepth : depth ≤ depth') :
    ReadsNarrowly set set' depth depth' := by
  induction depth generalizing depth' with
  | zero =>
      intro ts
      rw [parse]
      exact narrows_fail _ _ _ _
  | succ depth ih =>
      cases depth' with
      | zero => cases hDepth
      | succ depth' =>
          have hDepth := Nat.le_of_succ_le_succ hDepth
          have hParts := ih hDepth
          intro ts
          cases ts with
          | nil =>
              rw [parse, parse]
              exact Expr.narrows_parseTerminated h hDepth _ _
          | cons t us =>
              by_cases hPrint : t.kind = .printWord
              · rw [parse_of_printWord hPrint,
                  parse_of_printWord hPrint]
                exact
                  Expr.narrows_parseTerminated h hDepth _ _
              by_cases hBlock : t.kind = .leftBrace
              · rw [parse_of_leftBrace hBlock,
                  parse_of_leftBrace hBlock]
                apply (hParts.parseBlock h hDepth
                  us).inBlock.andThen
                exact fun body rest => .same _
              by_cases hIf : t.kind = .ifWord
              · exact hParts.ifWord h hDepth hIf us
              rw [parse_of_expression hPrint hBlock hIf,
                parse_of_expression hPrint hBlock hIf]
              exact Expr.narrows_parseTerminated h hDepth _ _

/- Reading a declaration with no more levels. -/
theorem Decl.narrows_parse
    (h : Setting.Narrows set set')
    (hDepth : depth ≤ depth')
    (ts : List Token) :
    Narrows (parse set depth ts) (parse set' depth' ts) :=
  (Stmt.narrows_parse h hDepth).decl h hDepth ts

------------------------------------------------------------
-- Programs
------------------------------------------------------------

namespace Decl

/-
  The items of a program within narrower limits, and those
  of the same program within wider limits: one by one they
  are the same, up to where reading is first cut off.
-/
inductive ItemsNarrow :
    List (Except ParseError Decl) →
      List (Except ParseError Decl) → Prop where
  | nil :
      ItemsNarrow [] []
  | same
      {items items' : List (Except ParseError Decl)}
      (item : Except ParseError Decl)
      (more : ItemsNarrow items items') :
      ItemsNarrow (item :: items) (item :: items')
  | cut
      {e : ParseError}
      (hDeep : e.isTooDeep = true)
      (items items' : List (Except ParseError Decl)) :
      ItemsNarrow (.error e :: items) items'

/-
  A program is read the same up to where it is cut off.  An
  attempt that is not cut off leaves the same tokens, and
  from there on both readers have all of their levels again.
-/
theorem narrow_parseAll
    (h : Setting.Narrows set set')
    (ts : List Token) :
    ItemsNarrow (parseAll set ts) (parseAll set' ts) := by
  cases ts with
  | nil =>
      rw [parseAll_nil, parseAll_nil]
      exact .nil
  | cons t us =>
      have hFirst := narrows_parse h h.depthRoom_le (t :: us)
      generalize hParse :
        parse set set.limits.depthRoom (t :: us) = a at hFirst
      generalize hParse' :
        parse set' set'.limits.depthRoom (t :: us) = b
          at hFirst
      cases hFirst with
      | same =>
          cases a with
          | done d rest =>
              have hLess := length_lt_of_parse hParse
              rw [parseAll_of_done hParse,
                parseAll_of_done hParse']
              exact .same _ (narrow_parseAll h rest)
          | failed f =>
              have hLess := f.length_boundary_lt hParse
              rw [parseAll_of_failed hParse,
                parseAll_of_failed hParse']
              exact .same _ (narrow_parseAll h _)
      | cut hDeep =>
          rw [parseAll_of_failed hParse]
          exact .cut hDeep _ _
termination_by ts.length
decreasing_by
  · exact hLess
  · exact hLess

/- The items before the first one that is cut off are kept. -/
theorem ItemsNarrow.takeWhile_prefix
    {items items' : List (Except ParseError Decl)}
    (h : ItemsNarrow items items') :
    items.takeWhile (fun item => !isTooDeep item) <+:
      items' := by
  induction h with
  | nil => exact List.nil_prefix
  | same item more ih =>
      rw [List.takeWhile_cons]
      split
      · exact List.cons_prefix_cons.mpr ⟨rfl, ih⟩
      · exact List.nil_prefix
  | @cut e hDeep items items' =>
      rw [List.takeWhile_cons, isTooDeep, hDeep]
      exact List.nil_prefix

/- If none is cut off, the items are the same. -/
theorem ItemsNarrow.eq
    {items items' : List (Except ParseError Decl)}
    (h : ItemsNarrow items items')
    (hNone : ∀ item ∈ items, isTooDeep item = false) :
    items = items' := by
  induction h with
  | nil => rfl
  | same item more ih =>
      rw [List.forall_mem_cons] at hNone
      rw [ih hNone.2]
  | cut hDeep items items' =>
      have hFirst := hNone _ List.mem_cons_self
      rw [isTooDeep, hDeep] at hFirst
      cases hFirst

/-
  Of two pairs of limits let the first be no higher in either
  of them.  However the tokens are read, as declarations or
  errors: the items before the first error about nesting
  within the lower limits are also the first items within the
  higher ones, and without such an error all items are.
-/
theorem programWithin_of_narrower
    {low high : Limits}
    (hDepth : low.depth ≤ high.depth)
    (hGroups : low.groups ≤ high.groups)
    (ts : List Token) :
    (programWithin low ts).takeWhile
          (fun item => !isTooDeep item) <+:
        programWithin high ts ∧
      ((∀ item ∈ programWithin low ts,
          isTooDeep item = false) →
        programWithin low ts = programWithin high ts) := by
  have hSettings :
      Setting.Narrows ⟨low, endLine ts⟩
        ⟨high, endLine ts⟩ :=
    ⟨hDepth, hGroups, rfl⟩
  have hItems := narrow_parseAll hSettings (body ts)
  exact ⟨hItems.takeWhile_prefix, hItems.eq⟩

/- The tokens of `a; ((b)); c`. -/
def nestedGroups : List Token :=
  [.plain .identifier "a", .plain .semicolon ";",
    .plain .leftParen "(", .plain .leftParen "(",
    .plain .identifier "b", .plain .rightParen ")",
    .plain .rightParen ")", .plain .semicolon ";",
    .plain .identifier "c"]

/-
  Where one parenthesis may be open at a time, the second
  declaration is cut off, and the first one is not; where
  two may be open, nothing is.
-/
theorem programWithin_of_narrower_nestedGroups :
    ((⟨128, 1⟩ : Limits).depth ≤ Limits.standard.depth ∧
      (⟨128, 1⟩ : Limits).groups ≤ Limits.standard.groups ∧
      (programWithin ⟨128, 1⟩ nestedGroups).map isTooDeep =
        [false, true, false] ∧
      (programWithin ⟨128, 1⟩ nestedGroups).takeWhile
          (fun item => !isTooDeep item) <+:
        programWithin .standard nestedGroups) ∧
    ((⟨128, 2⟩ : Limits).depth ≤ Limits.standard.depth ∧
      (⟨128, 2⟩ : Limits).groups ≤ Limits.standard.groups ∧
      (∀ item ∈ programWithin ⟨128, 2⟩ nestedGroups,
        isTooDeep item = false) ∧
      programWithin ⟨128, 2⟩ nestedGroups =
        programWithin .standard nestedGroups) := by
  have hNone :
      ∀ item ∈ programWithin ⟨128, 2⟩ nestedGroups,
        isTooDeep item = false := by
    decide +kernel
  refine ⟨⟨by decide, by decide, by decide +kernel, ?_⟩,
    by decide, by decide, hNone, ?_⟩
  · exact (programWithin_of_narrower (by decide)
      (by decide) nestedGroups).1
  · exact (programWithin_of_narrower (by decide)
      (by decide) nestedGroups).2 hNone

end Decl

end Lox
