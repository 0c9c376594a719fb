import Lox.Proofs.Grammar.Expr
import Lox.Tree.Parse.Program

/-
  Reading expressions follows their grammar.

  What is read off a token sequence is derived from the
  tokens that were consumed; and tokens from which a tree is
  derived are read as that tree, if what comes after them
  does not go on with it.

  Key theorems include:
    * `Expr.parse_induction`
    * `Expr.derives_of_parse`
    * `Expr.Derives.parse`
    * `Expr.stops_of_parse`
-/

namespace Lox

variable {set : Setting} {depth groups : Nat}
variable {c : Chain} {level : Level}
variable {t : Token} {ts rest : List Token}
variable {e left : Expr}
variable {α β : Type}

------------------------------------------------------------
-- Attempts
------------------------------------------------------------

namespace Attempt

/- Two steps succeed if the one does and then the other. -/
theorem andThen_eq_done
    {a : Attempt α}
    {next : α → List Token → Attempt β}
    {y : β} :
    a.andThen next = .done y rest ↔
      ∃ x mid,
        a = .done x mid ∧ next x mid = .done y rest := by
  cases a with
  | done x mid =>
      constructor
      · intro h
        exact ⟨x, mid, rfl, h⟩
      · rintro ⟨x, mid, h, hNext⟩
        cases h
        exact hNext
  | failed f => simp

/- An expected token is the first one. -/
theorem expect_eq_done
    {kind : Kind}
    {expected : String} :
    expect set kind expected ts = .done t rest ↔
      ts = t :: rest ∧ t.kind = kind := by
  cases ts with
  | nil => simp [expect, fail]
  | cons u us =>
      by_cases hu : u.kind = kind
      · simp only [expect, hu, if_true, done.injEq,
          List.cons.injEq]
        constructor
        · rintro ⟨rfl, rfl⟩
          exact ⟨⟨rfl, rfl⟩, hu⟩
        · rintro ⟨⟨rfl, rfl⟩, -⟩
          exact ⟨rfl, rfl⟩
      · simp only [expect, hu, if_false, fail, reduceCtorEq,
          List.cons.injEq, false_iff, not_and]
        rintro ⟨rfl, rfl⟩
        exact hu

end Attempt

------------------------------------------------------------
-- Steps of the Reader
------------------------------------------------------------

namespace Expr

/- A prefix operator is read before its operand. -/
theorem parse_of_isPrefixOperator
    (h : t.kind.isPrefixOperator = true) :
    parse set .unary (depth + 1) groups (t :: ts) =
      (parse set .unary depth groups ts).andThen
        fun operand rest =>
          .done (.unary t operand) rest := by
  rw [parse, if_pos h]

/- There is no room for an operator without a level. -/
theorem parse_zero_of_isPrefixOperator
    (h : t.kind.isPrefixOperator = true) :
    parse set .unary 0 groups (t :: ts) =
      .fail (set.lineAt ts)
        (.nestingTooDeep set.limits.depth) ts := by
  rw [parse, if_pos h]

/- What has no prefix operator is a primary. -/
theorem parse_of_not_isPrefixOperator
    (h : ¬ t.kind.isPrefixOperator = true) :
    parse set .unary depth groups (t :: ts) =
      parse set .primary depth groups (t :: ts) := by
  cases depth <;> rw [parse, if_neg h]

/- A literal is read as itself. -/
theorem parse_of_isLiteral
    (h : t.kind.isLiteral = true) :
    parse set .primary depth groups (t :: ts) =
      .done (.literal t) ts := by
  cases groups <;> rw [parse, if_pos h]

/- An identifier is read as itself. -/
theorem parse_of_identifier
    (h : t.kind = .identifier) :
    parse set .primary depth groups (t :: ts) =
      .done (.identifier t) ts := by
  have hLiteral : ¬ t.kind.isLiteral = true := by
    simp [h, Kind.isLiteral]
  cases groups <;> rw [parse, if_neg hLiteral, if_pos h]

/- After a parenthesis stands an expression, and its end. -/
theorem parse_of_leftParen
    (h : t.kind = .leftParen) :
    parse set .primary depth (groups + 1) (t :: ts) =
      (parse set .expression depth groups ts).andThen
        fun inner rest =>
      (Attempt.expect set .rightParen ")" rest).andThen
        fun _ rest => .done (.grouping inner) rest := by
  have hLiteral : ¬ t.kind.isLiteral = true := by
    simp [h, Kind.isLiteral]
  have hName : ¬ t.kind = .identifier := by
    simp [h]
  rw [parse, if_neg hLiteral, if_neg hName, if_pos h]

/- There is no room for a group without parentheses left. -/
theorem parse_zero_of_leftParen
    (h : t.kind = .leftParen) :
    parse set .primary depth 0 (t :: ts) =
      .fail t.line (.nestingTooDeep set.limits.groups)
        ts := by
  have hLiteral : ¬ t.kind.isLiteral = true := by
    simp [h, Kind.isLiteral]
  have hName : ¬ t.kind = .identifier := by
    simp [h]
  rw [parse, if_neg hLiteral, if_neg hName, if_pos h]

/- Other tokens do not start a primary. -/
theorem parse_of_not_primary
    (hLiteral : ¬ t.kind.isLiteral = true)
    (hName : ¬ t.kind = .identifier)
    (hOpening : ¬ t.kind = .leftParen) :
    parse set .primary depth groups (t :: ts) =
      .fail t.line
        (.unexpectedToken t.lexeme "an expression")
        (t :: ts) := by
  cases groups <;>
    rw [parse, if_neg hLiteral, if_neg hName, if_neg hOpening]

/- A chain goes on with an operator and an operand. -/
theorem parseChain_of_holds
    (h : c.holds t.kind = true) :
    parseChain set c left (depth + 1) groups (t :: ts) =
      (parse set c.operand depth groups ts).andThen
        fun right rest =>
          parseChain set c (c.join left t right)
            depth groups rest := by
  rw [parseChain, if_pos h]

/- There is no room for a link without a level. -/
theorem parseChain_zero_of_holds
    (h : c.holds t.kind = true) :
    parseChain set c left 0 groups (t :: ts) =
      .fail (set.lineAt ts)
        (.nestingTooDeep set.limits.depth) ts := by
  rw [parseChain, if_pos h]

/- A chain ends where no operator of it follows. -/
theorem parseChain_of_not_holds
    (h : ¬ c.holds t.kind = true) :
    parseChain set c left depth groups (t :: ts) =
      .done left (t :: ts) := by
  cases depth <;> rw [parseChain, if_neg h]

/- Tokens that no prefix operator leads are a primary. -/
theorem parse_unary_eq_primary
    (h : ∀ t ∈ ts.head?, ¬ t.kind.isPrefixOperator = true) :
    parse set .unary depth groups ts =
      parse set .primary depth groups ts := by
  cases ts with
  | nil => rw [parse]
  | cons t ts => exact parse_of_not_isPrefixOperator (h t rfl)

/- A chain ends at tokens that none of its operators leads. -/
theorem parseChain_eq_done
    (h : ∀ t ∈ ts.head?, ¬ c.holds t.kind = true) :
    parseChain set c left depth groups ts =
      .done left ts := by
  cases ts with
  | nil => rw [parseChain]
  | cons t ts => exact parseChain_of_not_holds (h t rfl)

/-
  What holds of every expression and chain that can be read,
  as it does wherever it does of the parts.  `Reads` is about
  an expression of a level, and `Chains` about a chain after
  its first operands.
-/
theorem parse_induction
    {Reads : Level → Nat → Nat → List Token → Prop}
    {Chains :
      Chain → Expr → Nat → Nat → List Token → Prop}
    (noExpressionRoom :
      ∀ groups ts, Reads .expression 0 groups ts)
    (expression :
      ∀ depth groups ts,
        Reads .assignment depth groups ts →
          Reads .expression (depth + 1) groups ts)
    (assignment :
      ∀ depth groups ts,
        Reads (.chain .disjunction) depth groups ts →
          (∀ below after, depth = below + 1 →
            Reads .assignment below groups after) →
          Reads .assignment depth groups ts)
    (chain :
      ∀ c depth groups ts,
        Reads c.operand depth groups ts →
          (∀ left rest, Chains c left depth groups rest) →
          Reads (.chain c) depth groups ts)
    (noOperatorRoom :
      ∀ groups op ts, op.kind.isPrefixOperator = true →
        Reads .unary 0 groups (op :: ts))
    (operator :
      ∀ depth groups op ts,
        op.kind.isPrefixOperator = true →
          Reads .unary depth groups ts →
          Reads .unary (depth + 1) groups (op :: ts))
    (operand :
      ∀ depth groups ts,
        (∀ t ∈ ts.head?,
          ¬ t.kind.isPrefixOperator = true) →
          Reads .primary depth groups ts →
          Reads .unary depth groups ts)
    (missing :
      ∀ depth groups, Reads .primary depth groups [])
    (literal :
      ∀ depth groups t ts, t.kind.isLiteral = true →
        Reads .primary depth groups (t :: ts))
    (identifier :
      ∀ depth groups t ts, t.kind = .identifier →
        Reads .primary depth groups (t :: ts))
    (noGroupRoom :
      ∀ depth t ts, t.kind = .leftParen →
        Reads .primary depth 0 (t :: ts))
    (group :
      ∀ depth groups t ts, t.kind = .leftParen →
        Reads .expression depth groups ts →
          Reads .primary depth (groups + 1) (t :: ts))
    (other :
      ∀ depth groups t ts, ¬ t.kind.isLiteral = true →
        ¬ t.kind = .identifier → ¬ t.kind = .leftParen →
          Reads .primary depth groups (t :: ts))
    (noLinkRoom :
      ∀ c left groups op ts, c.holds op.kind = true →
        Chains c left 0 groups (op :: ts))
    (link :
      ∀ c left depth groups op ts, c.holds op.kind = true →
        Reads c.operand depth groups ts →
          (∀ right rest,
            Chains c (c.join left op right) depth groups
              rest) →
          Chains c left (depth + 1) groups (op :: ts))
    (stop :
      ∀ c left depth groups ts,
        (∀ t ∈ ts.head?, ¬ c.holds t.kind = true) →
          Chains c left depth groups ts) :
    (∀ level depth groups ts,
      Reads level depth groups ts) ∧
    (∀ c left depth groups ts,
      Chains c left depth groups ts) := by
  apply Expr.parse.mutual_induct
  case case1 => exact noExpressionRoom
  case case2 =>
    exact fun groups ts depth => expression depth groups ts
  case case3 =>
    intro depth groups ts ihLeft ihValue
    apply assignment depth groups ts ihLeft
    rintro below after rfl
    exact ihValue after
  case case4 =>
    exact fun depth groups ts c => chain c depth groups ts
  case case5 =>
    exact fun depth groups => operand depth groups [] nofun
  case case6 => exact noOperatorRoom
  case case7 =>
    exact fun groups op ts hOp depth =>
      operator depth groups op ts hOp
  case case8 =>
    intro depth groups t ts hOp
    apply operand
    rintro u ⟨⟩
    exact hOp
  case case9 => exact missing
  case case10 => exact literal
  case case11 =>
    exact fun depth groups t ts _ =>
      identifier depth groups t ts
  case case12 =>
    exact fun depth t ts _ _ => noGroupRoom depth t ts
  case case13 =>
    exact fun depth t ts _ _ hOpening groups =>
      group depth groups t ts hOpening
  case case14 => exact other
  case case15 =>
    exact fun c left depth groups =>
      stop c left depth groups [] nofun
  case case16 => exact noLinkRoom
  case case17 =>
    exact fun c left groups op ts hOp depth =>
      link c left depth groups op ts hOp
  case case18 =>
    intro c left depth groups t ts hOp
    apply stop
    rintro u ⟨⟩
    exact hOp

end Expr

------------------------------------------------------------
-- Soundness
------------------------------------------------------------

/- What is assigned is derived if both of its sides are. -/
theorem Expr.derives_of_assignTo
    {us vs : List Token}
    {equals : Token}
    {value : Expr}
    (hus :
      Derives (.chain .disjunction) (depth + 1) groups us
        left)
    (hEquals : equals.kind = .equal)
    (hvs : Derives .assignment depth groups vs value)
    (hAssign : assignTo equals left value ts = .done e rest) :
    ts = rest ∧
      Derives .assignment (depth + 1) groups
        (us ++ equals :: vs) e := by
  cases left with
  | identifier name =>
      cases hAssign
      rcases hus.of_identifier with ⟨rfl, hName⟩
      exact ⟨rfl, .assign hName hEquals hvs⟩
  | _ => simp [assignTo, Attempt.fail] at hAssign

/-
  Reading an expression, and going on with a chain.  A chain
  spends a level for each operator, so the levels left and
  the operators joined so far make up what it began with.
-/
theorem Expr.derives_of_parse_and_parseChain
    (set : Setting) :
    (∀ level depth groups ts,
      ∀ e rest,
        parse set level depth groups ts = .done e rest →
          ∃ us, ts = us ++ rest ∧
            Derives level depth groups us e) ∧
    (∀ c left depth groups ts,
      ∀ e rest room us,
        parseChain set c left depth groups ts =
            .done e rest →
          Derives (.chain c) room groups us left →
          depth + left.links c = room →
          ∃ vs, ts = vs ++ rest ∧
            Derives (.chain c) room groups
              (us ++ vs) e) := by
  apply parse_induction
  case noExpressionRoom =>
    intro groups ts e rest h
    rw [parse] at h
    cases h
  case expression =>
    intro depth groups ts ih e rest h
    rw [parse] at h
    rcases ih e rest h with ⟨us, rfl, hus⟩
    exact ⟨us, rfl, .expression hus⟩
  case assignment =>
    intro depth groups ts ihLeft ihValue e rest h
    rw [parse, Attempt.andThen_eq_done] at h
    rcases h with ⟨left, mid, hLeft, hRest⟩
    rcases ihLeft left mid hLeft with ⟨us, rfl, hus⟩
    split at hRest
    · cases hRest
      exact ⟨us, rfl, .plain hus⟩
    · rename_i equals after
      split at hRest
      · rename_i hEquals
        cases depth with
        | zero => simp [Attempt.fail] at hRest
        | succ depth =>
            rw [Attempt.andThen_eq_done] at hRest
            rcases hRest with ⟨value, mid, hValue, hAssign⟩
            rcases ihValue depth after rfl value mid
                hValue with
              ⟨vs, rfl, hvs⟩
            rcases derives_of_assignTo hus hEquals hvs
                hAssign with
              ⟨rfl, hAll⟩
            exact ⟨us ++ equals :: vs, by simp, hAll⟩
      · cases hRest
        exact ⟨us, rfl, .plain hus⟩
  case chain =>
    intro c depth groups ts ihOperand ihChain e rest h
    rw [parse, Attempt.andThen_eq_done] at h
    rcases h with ⟨left, mid, hLeft, hRest⟩
    rcases ihOperand left mid hLeft with ⟨us, rfl, hus⟩
    have hLinks : left.links c = 0 :=
      hus.links_eq_zero Chain.operand_ne_expression
        (Level.rank_operand_lt c)
    rcases
        ihChain left mid e rest depth us hRest
          (.operand hus) (by omega) with
      ⟨vs, rfl, hvs⟩
    exact ⟨us ++ vs, by simp, hvs⟩
  case noOperatorRoom =>
    intro groups op ts hOp e rest h
    rw [parse_zero_of_isPrefixOperator hOp] at h
    cases h
  case operator =>
    intro depth groups op ts hOp ih e rest h
    rw [parse_of_isPrefixOperator hOp,
      Attempt.andThen_eq_done] at h
    rcases h with ⟨operand, mid, hOperand, hDone⟩
    rcases ih operand mid hOperand with ⟨us, rfl, hus⟩
    cases hDone
    exact ⟨op :: us, rfl, .unary hOp hus⟩
  case operand =>
    intro depth groups ts hHead ih e rest h
    rw [parse_unary_eq_primary hHead] at h
    rcases ih e rest h with ⟨us, hus, h⟩
    exact ⟨us, hus, .primary h⟩
  case missing =>
    intro depth groups e rest h
    rw [parse] at h
    cases h
  case literal =>
    intro depth groups t ts hLiteral e rest h
    rw [parse_of_isLiteral hLiteral] at h
    cases h
    exact ⟨[t], rfl, .literal hLiteral⟩
  case identifier =>
    intro depth groups t ts hName e rest h
    rw [parse_of_identifier hName] at h
    cases h
    exact ⟨[t], rfl, .identifier hName⟩
  case noGroupRoom =>
    intro depth t ts hOpening e rest h
    rw [parse_zero_of_leftParen hOpening] at h
    cases h
  case group =>
    intro depth groups opening ts hOpening ih e rest h
    rw [parse_of_leftParen hOpening,
      Attempt.andThen_eq_done] at h
    rcases h with ⟨inner, mid, hInner, h⟩
    rcases ih inner mid hInner with ⟨us, rfl, hus⟩
    rw [Attempt.andThen_eq_done] at h
    rcases h with ⟨closing, last, hExpect, hDone⟩
    rcases Attempt.expect_eq_done.mp hExpect with
      ⟨rfl, hClosing⟩
    cases hDone
    exact ⟨opening :: us ++ [closing], by simp,
      .grouping hOpening hus hClosing⟩
  case other =>
    intro depth groups t ts hLiteral hName hOpening e rest h
    rw [parse_of_not_primary hLiteral hName hOpening] at h
    cases h
  case noLinkRoom =>
    intro c left groups op ts hOp e rest room us h
    rw [parseChain_zero_of_holds hOp] at h
    cases h
  case link =>
    intro c left depth groups op ts hOp ihOperand ihChain
      e rest room us h hLeft hRoom
    rw [parseChain_of_holds hOp,
      Attempt.andThen_eq_done] at h
    rcases h with ⟨right, mid, hRight, hRest⟩
    rcases ihOperand right mid hRight with ⟨vs, rfl, hvs⟩
    have hJoin :
        Derives (.chain c) room groups (us ++ op :: vs)
          (c.join left op right) :=
      .link hLeft hOp (by omega) hvs
    rcases
        ihChain right mid e rest room (us ++ op :: vs) hRest
          hJoin (by
            rw [Chain.links_join, if_pos hOp]
            omega) with
      ⟨ws, rfl, hws⟩
    exact ⟨op :: vs ++ ws, by simp, by simpa using hws⟩
  case stop =>
    intro c left depth groups ts hHead e rest room us h
      hLeft hRoom
    rw [parseChain_eq_done hHead] at h
    cases h
    exact ⟨[], rfl, by rwa [List.append_nil]⟩

/- An expression is derived from the tokens it consumes. -/
theorem Expr.derives_of_parse
    (h : parse set level depth groups ts = .done e rest) :
    ∃ us, ts = us ++ rest ∧
      Derives level depth groups us e :=
  (derives_of_parse_and_parseChain set).1
    level depth groups ts e rest h

------------------------------------------------------------
-- Completeness
------------------------------------------------------------

/-
  The kinds of tokens that go on with an expression of a
  level: the operators of that level and of tighter ones,
  and the equality sign where a value can be assigned.
-/
def Level.Extends
    (level : Level)
    (k : Kind) : Prop :=
  (k = .equal ∧
    (level = .expression ∨ level = .assignment)) ∨
  ∃ c : Chain,
    c.holds k = true ∧
      (level = .expression ∨
        (chain c).rank ≤ level.rank)

/- Tokens that do not go on with an expression of a level. -/
def Level.Stops
    (level : Level)
    (ts : List Token) : Prop :=
  ∀ t ∈ ts.head?, ¬ level.Extends t.kind

namespace Level

/- What stops an expression stops an assignment. -/
theorem Stops.assignment
    (h : Stops .expression ts) :
    Stops .assignment ts := by
  rintro t ht (⟨hEqual, -⟩ | ⟨c, hc, -⟩)
  · exact h t ht (.inl ⟨hEqual, .inl rfl⟩)
  · exact h t ht (.inr ⟨c, hc, .inl rfl⟩)

/- What stops an assignment stops its loosest chain. -/
theorem Stops.disjunction
    (h : Stops .assignment ts) :
    Stops (.chain .disjunction) ts := by
  rintro t ht (⟨-, hLevel⟩ | ⟨c, hc, -⟩)
  · rcases hLevel with hLevel | hLevel <;> cases hLevel
  · refine h t ht (.inr ⟨c, hc, .inr ?_⟩)
    cases c <;> decide

/- What stops a chain stops its operands. -/
theorem Stops.operand
    (h : Stops (.chain c) ts) :
    Stops c.operand ts := by
  rintro t ht (⟨-, hLevel⟩ | ⟨d, hd, hLevel⟩)
  · cases c <;> simp [Chain.operand] at hLevel
  · refine h t ht (.inr ⟨d, hd, .inr ?_⟩)
    rcases hLevel with hLevel | hLevel
    · exact absurd hLevel Chain.operand_ne_expression
    · exact Nat.le_trans hLevel
        (Nat.le_of_lt (rank_operand_lt c))

/- Everything stops a primary. -/
theorem stops_primary :
    Stops .primary ts := by
  rintro t ht (⟨-, hLevel⟩ | ⟨c, hc, hLevel⟩)
  · rcases hLevel with hLevel | hLevel <;> cases hLevel
  · rcases hLevel with hLevel | hLevel
    · cases hLevel
    · cases c <;> simp [rank] at hLevel

/- An operator of a chain stops the operands of the chain. -/
theorem stops_operand_of_holds
    (h : c.holds t.kind = true) :
    c.operand.Stops (t :: ts) := by
  rintro u hu (⟨-, hLevel⟩ | ⟨d, hd, hLevel⟩)
  · cases c <;> simp [Chain.operand] at hLevel
  · cases hu
    rw [Chain.holds_unique hd h] at hLevel
    rcases hLevel with hLevel | hLevel
    · exact Chain.operand_ne_expression hLevel
    · exact Nat.not_lt.mpr hLevel (rank_operand_lt c)

end Level

namespace Expr

/- A closing parenthesis stops every expression. -/
theorem stops_of_rightParen
    (h : t.kind = .rightParen) :
    level.Stops (t :: ts) := by
  rintro u hu (⟨hEqual, -⟩ | ⟨c, hc, -⟩)
  · cases hu
    rw [h] at hEqual
    cases hEqual
  · cases hu
    rw [h] at hc
    cases c <;> cases hc

/- A chain ends at what stops it. -/
theorem parseChain_of_stops
    (h : (Level.chain c).Stops rest) :
    parseChain set c left depth groups rest =
      .done left rest := by
  apply parseChain_eq_done
  intro t ht hOp
  exact h t ht (.inr ⟨c, hOp, .inr (Nat.le_refl _)⟩)

/- A name before an equality sign is read as a chain. -/
theorem parse_name
    {name equals : Token}
    (hName : name.kind = .identifier)
    (hEquals : equals.kind = .equal) :
    parse set (.chain .disjunction) depth groups
        (name :: equals :: ts) =
      .done (.identifier name) (equals :: ts) := by
  have hPrefix : ¬ name.kind.isPrefixOperator = true := by
    simp [hName, Kind.isPrefixOperator]
  have hChain :
      ∀ c : Chain, ¬ c.holds equals.kind = true := by
    rw [hEquals]
    intro c
    cases c <;> decide
  simp only [parse, Chain.operand,
    parse_of_not_isPrefixOperator hPrefix,
    parse_of_identifier hName, Attempt.andThen_done,
    parseChain_of_not_holds (hChain _)]

/- Going on with a chain is done where the chain stops. -/
theorem parse_of_eq_parseChain
    {room : Nat}
    (h :
      Expr.parse set (.chain c) depth groups ts =
        parseChain set c e room groups rest)
    (hRest : (Level.chain c).Stops rest) :
    Expr.parse set (.chain c) depth groups ts =
      .done e rest := by
  rw [h, parseChain_of_stops hRest]

/-
  Derived tokens are read as their tree.  At a chain the
  reader can go on after the tree, with the levels that its
  operators have left.
-/
theorem Derives.parse_and_parseChain
    (h : Derives level depth groups ts e) :
    (∀ rest, level.Stops rest →
      Expr.parse set level depth groups (ts ++ rest) =
        .done e rest) ∧
    (∀ c rest, level = .chain c → c.operand.Stops rest →
      Expr.parse set level depth groups (ts ++ rest) =
        parseChain set c e (depth - e.links c) groups
          rest) := by
  induction h with
  | expression inner ih =>
      refine ⟨fun rest hRest => ?_,
        fun _ _ hLevel => by cases hLevel⟩
      rw [Expr.parse]
      exact ih.1 rest hRest.assignment
  | @assign _ _ _ _ equals _ hName hEquals inner ih =>
      refine ⟨fun rest hRest => ?_,
        fun _ _ hLevel => by cases hLevel⟩
      rw [Expr.parse, List.cons_append, List.cons_append,
        parse_name hName hEquals, Attempt.andThen_done]
      simp only [hEquals, if_true]
      rw [ih.1 rest hRest]
      rfl
  | @plain _ _ _ e inner ih =>
      refine ⟨fun rest hRest => ?_,
        fun _ _ hLevel => by cases hLevel⟩
      rw [Expr.parse, ih.1 rest hRest.disjunction,
        Attempt.andThen_done]
      cases rest with
      | nil => rfl
      | cons t ts =>
          have hEqual : ¬ t.kind = .equal := fun hEqual =>
            hRest t rfl (.inl ⟨hEqual, .inr rfl⟩)
          simp only [hEqual, if_false]
  | @operand depth groups ts e c inner ih =>
      have hGoOn : ∀ rest, c.operand.Stops rest →
          Expr.parse set (.chain c) depth groups
              (ts ++ rest) =
            parseChain set c e (depth - e.links c) groups
              rest := by
        intro rest hRest
        have hLinks := inner.links_eq_zero
          Chain.operand_ne_expression
          (Level.rank_operand_lt c)
        rw [Expr.parse, ih.1 rest hRest,
          Attempt.andThen_done, hLinks, Nat.sub_zero]
      refine ⟨fun rest hRest => parse_of_eq_parseChain
        (hGoOn rest hRest.operand) hRest, ?_⟩
      rintro d rest ⟨⟩ hRest
      exact hGoOn rest hRest
  | @link depth below groups ts us c op left right first hOp
      hDepth second ih₁ ih₂ =>
      have hGoOn : ∀ rest, c.operand.Stops rest →
          Expr.parse set (.chain c) depth groups
              (ts ++ op :: us ++ rest) =
            parseChain set c (c.join left op right)
              (depth - (c.join left op right).links c)
              groups rest := by
        intro rest hRest
        have hLeft := ih₁.2 c (op :: us ++ rest) rfl
          (Level.stops_operand_of_holds hOp)
        have hRight := ih₂.1 rest hRest
        have hRoom : depth - left.links c = below + 1 := by
          omega
        have hBelow :
            depth - (c.join left op right).links c =
              below := by
          rw [Chain.links_join, if_pos hOp]
          omega
        rw [List.append_assoc, hLeft, hRoom,
          List.cons_append, parseChain_of_holds hOp, hRight,
          Attempt.andThen_done, hBelow]
      refine ⟨fun rest hRest => parse_of_eq_parseChain
        (hGoOn rest hRest.operand) hRest, ?_⟩
      rintro d rest ⟨⟩ hRest
      exact hGoOn rest hRest
  | unary hOp inner ih =>
      refine ⟨fun rest hRest => ?_,
        fun _ _ hLevel => by cases hLevel⟩
      rw [List.cons_append, parse_of_isPrefixOperator hOp,
        ih.1 rest hRest, Attempt.andThen_done]
  | primary inner ih =>
      refine ⟨fun rest hRest => ?_,
        fun _ _ hLevel => by cases hLevel⟩
      rcases inner.eq_cons_primary with
        ⟨t, us, rfl, hPrefix⟩
      rw [List.cons_append,
        parse_of_not_isPrefixOperator hPrefix]
      exact ih.1 rest Level.stops_primary
  | literal hLiteral =>
      refine ⟨fun rest _ => ?_,
        fun _ _ hLevel => by cases hLevel⟩
      exact parse_of_isLiteral hLiteral
  | identifier hName =>
      refine ⟨fun rest _ => ?_,
        fun _ _ hLevel => by cases hLevel⟩
      exact parse_of_identifier hName
  | grouping hOpening inner hClosing ih =>
      refine ⟨fun rest _ => ?_,
        fun _ _ hLevel => by cases hLevel⟩
      rw [List.append_assoc, List.cons_append,
        List.singleton_append, parse_of_leftParen hOpening,
        ih.1 _ (stops_of_rightParen hClosing),
        Attempt.andThen_done,
        Attempt.expect_eq_done.mpr ⟨rfl, hClosing⟩,
        Attempt.andThen_done]

/- Derived tokens are read as their tree. -/
theorem Derives.parse
    (h : Derives level depth groups ts e)
    (set : Setting)
    (hRest : level.Stops rest) :
    Expr.parse set level depth groups (ts ++ rest) =
      .done e rest :=
  h.parse_and_parseChain.1 rest hRest

end Expr

------------------------------------------------------------
-- Where Expressions Stop
------------------------------------------------------------

namespace Level

/- Everything stops a prefix operator and its operand. -/
theorem stops_unary :
    Stops .unary ts := by
  rintro t ht (⟨-, hLevel⟩ | ⟨c, hc, hLevel⟩)
  · rcases hLevel with hLevel | hLevel <;> cases hLevel
  · rcases hLevel with hLevel | hLevel
    · cases hLevel
    · cases c <;> simp [rank] at hLevel

/- What stops the operands of a chain may stop the chain. -/
theorem Stops.chain
    (h : c.operand.Stops ts)
    (hOp : ∀ t ∈ ts.head?, ¬ c.holds t.kind = true) :
    Stops (.chain c) ts := by
  rintro t ht (⟨-, hLevel⟩ | ⟨d, hd, hLevel⟩)
  · rcases hLevel with hLevel | hLevel <;> cases hLevel
  · by_cases hdc : d = c
    · exact hOp t ht (hdc ▸ hd)
    · refine h t ht (.inr ⟨d, hd, .inr ?_⟩)
      rcases hLevel with hLevel | hLevel
      · cases hLevel
      · cases c <;> cases d <;>
          simp [rank, Chain.operand] at hLevel hdc ⊢

/- What stops the loosest chain may stop an assignment. -/
theorem Stops.assignment_of_disjunction
    (h : Stops (.chain .disjunction) ts)
    (hEqual : ∀ t ∈ ts.head?, ¬ t.kind = .equal) :
    Stops .assignment ts := by
  rintro t ht (⟨hKind, -⟩ | ⟨d, hd, -⟩)
  · exact hEqual t ht hKind
  · refine h t ht (.inr ⟨d, hd, .inr ?_⟩)
    cases d <;> decide

/- What stops an assignment stops an expression. -/
theorem Stops.expression
    (h : Stops .assignment ts) :
    Stops .expression ts := by
  rintro t ht (⟨hKind, -⟩ | ⟨d, hd, -⟩)
  · exact h t ht (.inl ⟨hKind, .inr rfl⟩)
  · refine h t ht (.inr ⟨d, hd, .inr ?_⟩)
    cases d <;> decide

/- Nothing stops anything. -/
theorem stops_nil :
    Stops level [] := by
  rintro t ⟨⟩

end Level

namespace Expr

/-
  A chain ends where it stops, if its operands do.  The
  induction is on the levels, of which an operator takes one.
-/
theorem stops_of_parseChain
    (hOperand :
      ∀ depth ts e rest,
        parse set c.operand depth groups ts =
            .done e rest →
          c.operand.Stops rest)
    (hStart : c.operand.Stops ts)
    (h :
      parseChain set c left depth groups ts =
        .done e rest) :
    Level.Stops (.chain c) rest := by
  induction depth generalizing left ts with
  | zero =>
      cases ts with
      | nil =>
          rw [parseChain] at h
          cases h
          exact Level.stops_nil
      | cons t ts =>
          by_cases hOp : c.holds t.kind = true
          · rw [parseChain_zero_of_holds hOp] at h
            cases h
          · rw [parseChain_of_not_holds hOp] at h
            cases h
            exact hStart.chain fun u hu => by
              cases hu
              exact hOp
  | succ depth ih =>
      cases ts with
      | nil =>
          rw [parseChain] at h
          cases h
          exact Level.stops_nil
      | cons t ts =>
          by_cases hOp : c.holds t.kind = true
          · rw [parseChain_of_holds hOp,
              Attempt.andThen_eq_done] at h
            rcases h with ⟨right, mid, hRight, hRest⟩
            exact ih (hOperand _ _ _ _ hRight) hRest
          · rw [parseChain_of_not_holds hOp] at h
            cases h
            exact hStart.chain fun u hu => by
              cases hu
              exact hOp

/-
  Chains end where they stop.  The induction goes from the
  tightest chain, whose operands need no stop, to the others.
-/
theorem stops_of_parse_chain
    (c : Chain)
    (h : parse set (.chain c) depth groups ts = .done e rest) :
    Level.Stops (.chain c) rest := by
  have hChain :
      ∀ c : Chain,
        (∀ depth ts e rest,
          parse set c.operand depth groups ts =
              .done e rest →
            c.operand.Stops rest) →
        ∀ depth ts e rest,
          parse set (.chain c) depth groups ts =
              .done e rest →
            Level.Stops (.chain c) rest := by
    intro c hOperand depth ts e rest h
    rw [parse, Attempt.andThen_eq_done] at h
    rcases h with ⟨left, mid, hLeft, hRest⟩
    exact stops_of_parseChain hOperand
      (hOperand _ _ _ _ hLeft) hRest
  have hFactor := hChain .factor
    fun _ _ _ _ _ => Level.stops_unary
  have hTerm := hChain .term hFactor
  have hComparison := hChain .comparison hTerm
  have hEquality := hChain .equality hComparison
  have hConjunction := hChain .conjunction hEquality
  cases c with
  | factor => exact hFactor _ _ _ _ h
  | term => exact hTerm _ _ _ _ h
  | comparison => exact hComparison _ _ _ _ h
  | equality => exact hEquality _ _ _ _ h
  | conjunction => exact hConjunction _ _ _ _ h
  | disjunction =>
      exact hChain .disjunction hConjunction _ _ _ _ h

/- An assignment ends where it stops. -/
theorem stops_of_parse_assignment
    (h :
      parse set .assignment depth groups ts =
        .done e rest) :
    Level.Stops .assignment rest := by
  induction depth using Nat.strongRecOn
      generalizing ts e rest with
  | ind depth ih =>
      rw [parse, Attempt.andThen_eq_done] at h
      rcases h with ⟨left, mid, hLeft, hRest⟩
      have hMid := stops_of_parse_chain _ hLeft
      cases mid with
      | nil =>
          cases hRest
          exact Level.stops_nil
      | cons equals after =>
          dsimp only at hRest
          split at hRest
          · cases depth with
            | zero => cases hRest
            | succ depth =>
                rw [Attempt.andThen_eq_done] at hRest
                rcases hRest with ⟨value, mid, hValue, hAssign⟩
                have hSame : mid = rest := by
                  cases left <;> cases hAssign
                  rfl
                subst hSame
                exact ih depth (Nat.lt_succ_self depth) hValue
          · rename_i hEquals
            cases hRest
            apply hMid.assignment_of_disjunction
            rintro t ⟨⟩
            exact hEquals

/- An expression ends where it stops. -/
theorem stops_of_parse
    (h : parse set .expression depth groups ts = .done e rest) :
    Level.Stops .expression rest := by
  cases depth with
  | zero =>
      rw [parse] at h
      cases h
  | succ depth =>
      rw [parse] at h
      exact (stops_of_parse_assignment h).expression

end Expr

end Lox
