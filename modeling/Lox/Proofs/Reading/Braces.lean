import Lox.Proofs.Reading.Progress

/-
  Braces that attempts consume.

  Wherever an attempt ends, the number of blocks it tells to
  be open is that of the braces it has consumed: those that
  open a block less those that close one.  Expressions have
  no part in this, as they hold no braces.

  Key definitions include:
    * `Token.Nests`
    * `Attempt.opened`
    * `Attempt.Accounts`

  Key theorems include:
    * `Expr.accounts_parse`
    * `Stmt.accounts_parse`
    * `Decl.accounts_parse`
    * `Decl.nests_of_parseBlock`
-/

namespace Lox

variable {set : Setting} {depth groups : Nat}
variable {t : Token} {ts us vs rest : List Token}
variable {k m n : Nat}
variable {α β : Type}

------------------------------------------------------------
-- Nesting of Braces
------------------------------------------------------------

namespace Token

/- How many blocks tokens open. -/
def opens
    (ts : List Token) : Nat :=
  ts.countP fun t => t.kind == .leftBrace

/- How many blocks tokens close. -/
def closes
    (ts : List Token) : Nat :=
  ts.countP fun t => t.kind == .rightBrace

/-
  Tokens before which `m` blocks are open and after which
  `n` are: none of them closes a block that is not open.
-/
structure Nests
    (m : Nat)
    (ts : List Token)
    (n : Nat) : Prop where
  closes_le :
    ∀ us vs, ts = us ++ vs → closes us ≤ m + opens us
  closes_add : closes ts + n = m + opens ts

/- Blocks are opened by one part and by the other. -/
theorem opens_append
    (us vs : List Token) :
    opens (us ++ vs) = opens us + opens vs :=
  List.countP_append

/- Blocks are closed by one part and by the other. -/
theorem closes_append
    (us vs : List Token) :
    closes (us ++ vs) = closes us + closes vs :=
  List.countP_append

namespace Nests

/- Without tokens, nothing changes. -/
theorem nil :
    Nests n [] n where
  closes_le us vs h := by
    rw [(List.append_eq_nil_iff.mp h.symm).1]
    exact Nat.zero_le _
  closes_add := Nat.add_comm 0 n

/- How many blocks are open after tokens is determined. -/
theorem unique
    (h : Nests m ts n)
    (h' : Nests m ts k) :
    n = k := by
  have := h.closes_add
  have := h'.closes_add
  omega

/- Further blocks around do not matter. -/
theorem add
    (h : Nests m ts n)
    (k : Nat) :
    Nests (m + k) ts (n + k) where
  closes_le us vs hts := by
    have := h.closes_le us vs hts
    omega
  closes_add := by
    have := h.closes_add
    omega

/- Tokens nest one part after the other. -/
theorem append
    (h : Nests m us k)
    (h' : Nests k vs n) :
    Nests m (us ++ vs) n where
  closes_le ws xs hSplit := by
    rcases List.append_eq_append_iff.mp hSplit with
      ⟨ys, rfl, hvs⟩ | ⟨ys, hus, -⟩
    · have := h.closes_add
      have := h'.closes_le ys xs hvs
      rw [opens_append, closes_append]
      omega
    · exact h.closes_le ws ys hus
  closes_add := by
    have := h.closes_add
    have := h'.closes_add
    rw [opens_append, closes_append]
    omega

/- Both parts of tokens that nest do so. -/
theorem split
    (h : Nests m (us ++ vs) n) :
    ∃ k, Nests m us k ∧ Nests k vs n := by
  have hAll := h.closes_add
  have hFirst := h.closes_le us vs rfl
  rw [opens_append, closes_append] at hAll
  refine ⟨m + opens us - closes us, ⟨?_, ?_⟩, ?_, ?_⟩
  · intro ws xs hus
    apply h.closes_le ws (xs ++ vs)
    rw [hus, List.append_assoc]
  · omega
  · intro ws xs hvs
    have hBoth := h.closes_le (us ++ ws) xs
      (by rw [hvs, List.append_assoc])
    rw [opens_append, closes_append] at hBoth
    omega
  · omega

/- A first token nests, and so do the others after it. -/
theorem split_cons
    (h : Nests m (t :: ts) n) :
    ∃ k, Nests m [t] k ∧ Nests k ts n := by
  rw [← List.singleton_append] at h
  exact h.split

/- A brace opens a block. -/
theorem leftBrace
    (h : t.kind = .leftBrace) :
    Nests n [t] (n + 1) where
  closes_le us vs hSplit := by
    have hCloses : closes [t] = 0 := by
      simp [closes, h]
    rw [hSplit, closes_append] at hCloses
    omega
  closes_add := by
    simp [opens, closes, h]

/- A brace closes a block that is open. -/
theorem rightBrace
    (h : t.kind = .rightBrace) :
    Nests (n + 1) [t] n where
  closes_le us vs hSplit := by
    have hCloses : closes [t] = 1 := by
      simp [closes, h]
    rw [hSplit, closes_append] at hCloses
    omega
  closes_add := by
    simp [opens, closes, h]
    omega

/- Other tokens have no part in the nesting of blocks. -/
theorem other
    (hOpening : ¬ t.kind = .leftBrace)
    (hClosing : ¬ t.kind = .rightBrace) :
    Nests n [t] n where
  closes_le us vs hSplit := by
    have hCloses : closes [t] = 0 := by
      simp [closes, hClosing]
    rw [hSplit, closes_append] at hCloses
    omega
  closes_add := by
    simp [opens, closes, hOpening, hClosing]

/- A block is open after a brace that opens one. -/
theorem of_leftBrace
    (h : Nests m (t :: ts) n)
    (ht : t.kind = .leftBrace) :
    Nests (m + 1) ts n := by
  rcases h.split_cons with ⟨k, hFirst, hMore⟩
  rwa [(leftBrace ht).unique hFirst]

/- A block is open before a brace that closes one. -/
theorem of_rightBrace
    (h : Nests m (t :: ts) n)
    (ht : t.kind = .rightBrace) :
    ∃ k, m = k + 1 ∧ Nests k ts n := by
  rcases h.split_cons with ⟨k, hFirst, hMore⟩
  refine ⟨k, ?_, hMore⟩
  have := hFirst.closes_add
  simp [opens, closes, ht] at this
  omega

/- Other tokens may be left out. -/
theorem of_other
    (h : Nests m (t :: ts) n)
    (hOpening : ¬ t.kind = .leftBrace)
    (hClosing : ¬ t.kind = .rightBrace) :
    Nests m ts n := by
  rcases h.split_cons with ⟨k, hFirst, hMore⟩
  rwa [(other hOpening hClosing).unique hFirst]

/- Tokens without braces nest. -/
theorem of_braceless
    (h :
      ∀ t ∈ ts, ¬ t.kind = .leftBrace ∧
        ¬ t.kind = .rightBrace) :
    Nests n ts n := by
  induction ts with
  | nil => exact nil
  | cons t ts ih =>
      have hFirst := h t List.mem_cons_self
      have hMore := ih fun u hu =>
        h u (List.mem_cons_of_mem t hu)
      exact (other hFirst.1 hFirst.2).append hMore

/-
  Tokens that close the only open block hold the brace which
  does so.
-/
theorem exists_closing
    (h : Nests (n + 1) ts 0) :
    ∃ us closing vs,
      ts = us ++ closing :: vs ∧
        closing.kind = .rightBrace ∧
        Nests n us 0 ∧ Nests 0 vs 0 := by
  induction ts generalizing n with
  | nil =>
      have := h.closes_add
      simp [opens, closes] at this
  | cons t ts ih =>
      by_cases hOpening : t.kind = .leftBrace
      · rcases ih (h.of_leftBrace hOpening) with
          ⟨us, closing, vs, rfl, hClosing, hus, hvs⟩
        exact ⟨t :: us, closing, vs, rfl, hClosing,
          (leftBrace hOpening).append hus, hvs⟩
      by_cases hClosing : t.kind = .rightBrace
      · rcases h.of_rightBrace hClosing with ⟨k, hk, hts⟩
        cases n with
        | zero =>
            cases hk
            exact ⟨[], t, ts, rfl, hClosing, nil, hts⟩
        | succ n =>
            cases hk
            rcases ih hts with
              ⟨us, closing, vs, rfl, hLast, hus, hvs⟩
            exact ⟨t :: us, closing, vs, rfl, hLast,
              (rightBrace hClosing).append hus, hvs⟩
      · rcases ih (h.of_other hOpening hClosing) with
          ⟨us, closing, vs, rfl, hLast, hus, hvs⟩
        exact ⟨t :: us, closing, vs, rfl, hLast,
          (other hOpening hClosing).append hus, hvs⟩

end Nests

end Token

------------------------------------------------------------
-- Attempts
------------------------------------------------------------

namespace Attempt

/- How many blocks are open where an attempt ends. -/
def opened : Attempt α → Nat
  | done _ _ => 0
  | failed f => f.opened

/-
  Whether an attempt at reading `ts` tells how many blocks
  are open after the tokens that it consumed.
-/
def Accounts
    (ts : List Token)
    (a : Attempt α) : Prop :=
  ∃ us, ts = us ++ a.rest ∧ Token.Nests 0 us a.opened

/- An attempt that consumes nothing opens nothing. -/
theorem accounts_done
    (x : α)
    (ts : List Token) :
    Accounts ts (done x ts) :=
  ⟨[], rfl, .nil⟩

/- A failure on the spot opens nothing. -/
theorem accounts_fail
    (line : Int)
    (cause : ParseError.Cause)
    (ts : List Token) :
    Accounts ts (fail line cause ts : Attempt α) :=
  ⟨[], rfl, .nil⟩

namespace Accounts

/- Consuming a token first that is no brace. -/
theorem cons
    {a : Attempt α}
    (h : Accounts ts a)
    (hOpening : ¬ t.kind = .leftBrace)
    (hClosing : ¬ t.kind = .rightBrace) :
    Accounts (t :: ts) a := by
  rcases h with ⟨us, hts, hus⟩
  exact ⟨t :: us, by rw [hts, List.cons_append],
    (Token.Nests.other hOpening hClosing).append hus⟩

/- Consuming tokens first that open no block. -/
theorem append
    {a : Attempt α}
    (h : Accounts ts a)
    (hus : Token.Nests 0 us 0) :
    Accounts (us ++ ts) a := by
  rcases h with ⟨vs, hts, hvs⟩
  exact ⟨us ++ vs, by rw [List.append_assoc, ← hts],
    hus.append hvs⟩

/- Two steps account for what both of them consume. -/
theorem andThen
    {a : Attempt α}
    {next : α → List Token → Attempt β}
    (h : Accounts ts a)
    (hNext : ∀ x mid, Accounts mid (next x mid)) :
    Accounts ts (a.andThen next) := by
  cases a with
  | failed f => exact h
  | done x mid =>
      rcases h with ⟨us, rfl, hus⟩
      exact (hNext x mid).append hus

/- What a failure has consumed and opened. -/
theorem of_failed
    {f : Failure}
    (h : Accounts ts (failed f : Attempt α)) :
    ∃ us, ts = us ++ f.rest ∧ Token.Nests 0 us f.opened :=
  h

/- What a success has consumed opens no block. -/
theorem of_done
    {x : α}
    (h : Accounts ts (done x rest)) :
    ∃ us, ts = us ++ rest ∧ Token.Nests 0 us 0 :=
  h

end Accounts

/- Expecting a token that is no brace opens nothing. -/
theorem accounts_expect
    (set : Setting)
    (kind : Kind)
    (hOpening : ¬ kind = .leftBrace)
    (hClosing : ¬ kind = .rightBrace)
    (expected : String)
    (ts : List Token) :
    Accounts ts (expect set kind expected ts) := by
  cases ts with
  | nil => exact accounts_fail _ _ _
  | cons t ts =>
      rw [expect]
      split
      · rename_i hKind
        exact (accounts_done t ts).cons
          (by rwa [hKind]) (by rwa [hKind])
      · exact accounts_fail _ _ _

end Attempt

open Attempt

/- Skipping a semicolon opens nothing. -/
theorem Token.nests_skipSemicolon
    (ts : List Token) :
    ∃ us, ts = us ++ skipSemicolon ts ∧
      Token.Nests 0 us 0 := by
  rcases exists_append_skipSemicolon ts with
    ⟨us, hus, rfl | ⟨t, rfl, ht⟩⟩
  · exact ⟨[], hus, .nil⟩
  · exact ⟨[t], hus, .other (by simp [ht]) (by simp [ht])⟩

/- So does reading something and skipping a semicolon. -/
theorem Attempt.accounts_skipSemicolon
    (x : α)
    (ts : List Token) :
    Accounts ts (done x (skipSemicolon ts)) :=
  Token.nests_skipSemicolon ts

------------------------------------------------------------
-- Expressions
------------------------------------------------------------

/- A token of an expression is no brace. -/
theorem Kind.ne_brace_of_inExpr
    (h : t.kind.inExpr = true) :
    ¬ t.kind = .leftBrace ∧ ¬ t.kind = .rightBrace :=
  ⟨ne_of_inExpr h rfl, ne_of_inExpr h rfl⟩

/- An operator of a chain is no brace. -/
theorem Chain.ne_brace_of_holds
    {c : Chain}
    (h : c.holds t.kind = true) :
    ¬ t.kind = .leftBrace ∧ ¬ t.kind = .rightBrace :=
  Kind.ne_brace_of_inExpr (Kind.inExpr_of_holds h)

/- A prefix operator is no brace. -/
theorem Kind.ne_brace_of_isPrefixOperator
    (h : t.kind.isPrefixOperator = true) :
    ¬ t.kind = .leftBrace ∧ ¬ t.kind = .rightBrace :=
  ne_brace_of_inExpr (inExpr_of_isPrefixOperator h)

/- A literal is no brace. -/
theorem Kind.ne_brace_of_isLiteral
    (h : t.kind.isLiteral = true) :
    ¬ t.kind = .leftBrace ∧ ¬ t.kind = .rightBrace :=
  ne_brace_of_inExpr (inExpr_of_isLiteral h)

/- An expression is derived from tokens without braces. -/
theorem Expr.Derives.braceless
    {level : Level}
    {e : Expr}
    (h : Derives level depth groups ts e) :
    ∀ t ∈ ts, ¬ t.kind = .leftBrace ∧
      ¬ t.kind = .rightBrace :=
  fun t ht => Kind.ne_brace_of_inExpr (h.inExpr t ht)

/- Assigning opens nothing. -/
theorem Expr.accounts_assignTo
    (equals : Token)
    (left value : Expr)
    (ts : List Token) :
    Accounts ts (assignTo equals left value ts) := by
  cases left with
  | identifier name => exact accounts_done _ _
  | _ => exact accounts_fail _ _ _

/- Reading an expression, or a chain, opens nothing. -/
theorem Expr.accounts_parse_and_parseChain
    (set : Setting) :
    (∀ level depth groups ts,
      Accounts ts (parse set level depth groups ts)) ∧
    (∀ c left depth groups ts,
      Accounts ts (parseChain set c left depth groups ts)) := by
  apply parse_induction
  case noExpressionRoom =>
    intro groups ts
    rw [parse]
    exact accounts_fail _ _ _
  case expression =>
    intro depth groups ts ih
    rw [parse]
    exact ih
  case assignment =>
    intro depth groups ts ihLeft ihValue
    rw [parse]
    apply ihLeft.andThen
    intro left mid
    cases mid with
    | nil => exact accounts_done _ _
    | cons equals after =>
        dsimp only
        split
        · rename_i hEquals
          have hConsumed :
              ∀ a : Attempt Expr, Accounts after a →
                Accounts (equals :: after) a :=
            fun a ha => ha.cons
              (by simp [hEquals]) (by simp [hEquals])
          cases depth with
          | zero => exact hConsumed _ (accounts_fail _ _ _)
          | succ depth =>
              exact hConsumed _
                ((ihValue depth after rfl).andThen
                  (accounts_assignTo equals left))
        · exact accounts_done _ _
  case chain =>
    intro c depth groups ts ihOperand ihChain
    rw [parse]
    exact ihOperand.andThen ihChain
  case noOperatorRoom =>
    intro groups op ts hOp
    rw [parse_zero_of_isPrefixOperator hOp]
    have hBrace := Kind.ne_brace_of_isPrefixOperator hOp
    exact (accounts_fail _ _ _).cons hBrace.1 hBrace.2
  case operator =>
    intro depth groups op ts hOp ih
    rw [parse_of_isPrefixOperator hOp]
    have hBrace := Kind.ne_brace_of_isPrefixOperator hOp
    exact (ih.andThen fun operand rest =>
      accounts_done _ _).cons hBrace.1 hBrace.2
  case operand =>
    intro depth groups ts hHead ih
    rw [parse_unary_eq_primary hHead]
    exact ih
  case missing =>
    intro depth groups
    rw [parse]
    exact accounts_fail _ _ _
  case literal =>
    intro depth groups t ts hLiteral
    rw [parse_of_isLiteral hLiteral]
    have hBrace := Kind.ne_brace_of_isLiteral hLiteral
    exact (accounts_done _ _).cons hBrace.1 hBrace.2
  case identifier =>
    intro depth groups t ts hName
    rw [parse_of_identifier hName]
    exact (accounts_done _ _).cons
      (by simp [hName]) (by simp [hName])
  case noGroupRoom =>
    intro depth t ts hOpening
    rw [parse_zero_of_leftParen hOpening]
    exact (accounts_fail _ _ _).cons
      (by simp [hOpening]) (by simp [hOpening])
  case group =>
    intro depth groups opening ts hOpening ih
    rw [parse_of_leftParen hOpening]
    have hInner := ih.andThen fun inner mid =>
      (accounts_expect set .rightParen (by decide)
        (by decide) ")" mid).andThen fun _ rest =>
          accounts_done (grouping inner) rest
    exact hInner.cons
      (by simp [hOpening]) (by simp [hOpening])
  case other =>
    intro depth groups t ts hLiteral hName hOpening
    rw [parse_of_not_primary hLiteral hName hOpening]
    exact accounts_fail _ _ _
  case noLinkRoom =>
    intro c left groups op ts hOp
    rw [parseChain_zero_of_holds hOp]
    have hBrace := Chain.ne_brace_of_holds hOp
    exact (accounts_fail _ _ _).cons hBrace.1 hBrace.2
  case link =>
    intro c left depth groups op ts hOp ihOperand ihChain
    rw [parseChain_of_holds hOp]
    have hBrace := Chain.ne_brace_of_holds hOp
    exact (ihOperand.andThen ihChain).cons hBrace.1 hBrace.2
  case stop =>
    intro c left depth groups ts hHead
    rw [parseChain_eq_done hHead]
    exact accounts_done _ _

/- Reading an expression opens nothing. -/
theorem Expr.accounts_parse
    (set : Setting)
    (level : Level)
    (depth groups : Nat)
    (ts : List Token) :
    Accounts ts (parse set level depth groups ts) :=
  (accounts_parse_and_parseChain set).1 level depth groups ts

/- So does reading an expression and its end. -/
theorem Expr.accounts_parseTerminated
    (set : Setting)
    (depth : Nat)
    (make : Expr → α)
    (ts : List Token) :
    Accounts ts (parseTerminated set depth make ts) :=
  (accounts_parse set _ _ _ ts).andThen fun e rest =>
    accounts_skipSemicolon (make e) rest

------------------------------------------------------------
-- Statements and Declarations
------------------------------------------------------------

/- Reading a variable opens nothing. -/
theorem Decl.accounts_parseVariable
    (set : Setting)
    (depth : Nat)
    (ts : List Token) :
    Accounts ts (parseVariable set depth ts) := by
  unfold parseVariable
  cases ts with
  | nil => exact accounts_fail _ _ _
  | cons name after =>
      dsimp only
      split
      · rename_i hName
        refine Accounts.cons ?_
          (by simp [hName]) (by simp [hName])
        cases after with
        | nil => exact accounts_done _ _
        | cons equals after =>
            dsimp only
            split
            · rename_i hEquals
              exact (Expr.accounts_parseTerminated set depth
                _ after).cons
                (by simp [hEquals]) (by simp [hEquals])
            · exact accounts_skipSemicolon _ _
      · exact accounts_fail _ _ _

/- A declaration accounts for its braces if statements do. -/
theorem Decl.accounts_parseWith
    {statement : List Token → Attempt Stmt}
    (hStatement : ∀ ts, Accounts ts (statement ts))
    (ts : List Token) :
    Accounts ts (parseWith set depth statement ts) := by
  have hOther :
      Accounts ts
        ((statement ts).andThen fun s rest =>
          .done (Decl.statement s) rest) :=
    (hStatement ts).andThen fun s rest => accounts_done _ _
  cases ts with
  | nil => exact hOther
  | cons t ts =>
      rw [parseWith]
      split
      · rename_i hWord
        exact (accounts_parseVariable set depth ts).cons
          (by simp [hWord]) (by simp [hWord])
      · exact hOther

/-
  How reading a block after its opening brace accounts for
  braces: a success has closed the block, and at a failure
  it is open besides the blocks that the failure tells of.
-/
theorem Decl.nests_of_parseBlock
    (hDeclaration :
      ∀ ts, Accounts ts (Decl.parse set depth ts))
    (ts : List Token) :
    (∀ ds rest,
      parseBlock set depth ts = .done ds rest →
        ∃ us closing, ts = us ++ closing :: rest ∧
          closing.kind = .rightBrace ∧
          Token.Nests 0 us 0) ∧
    (∀ f,
      parseBlock set depth ts = .failed f →
        ∃ us, ts = us ++ f.rest ∧
          Token.Nests 0 us f.opened) := by
  induction ts using parseBlock_induction set depth with
  | nil =>
      rw [parseBlock_nil]
      refine ⟨nofun, ?_⟩
      rintro f ⟨⟩
      exact ⟨[], rfl, .nil⟩
  | closing t ts hClosing =>
      rw [parseBlock_of_rightBrace hClosing]
      refine ⟨?_, nofun⟩
      rintro ds rest ⟨⟩
      exact ⟨[], t, rfl, hClosing, .nil⟩
  | declaration t ts hClosing ih =>
      rw [parseBlock_of_not_rightBrace hClosing]
      have hFirst := hDeclaration (t :: ts)
      cases hd : Decl.parse set depth (t :: ts) with
      | failed f =>
          rw [hd] at hFirst
          refine ⟨nofun, ?_⟩
          rintro g ⟨⟩
          exact hFirst
      | done d mid =>
          rw [hd] at hFirst
          rcases hFirst.of_done with ⟨us, hts, hus⟩
          have hMore := ih d mid hd
          rw [Attempt.andThen_done]
          cases hds : parseBlock set depth mid with
          | failed f =>
              rcases hMore.2 f hds with ⟨vs, hmid, hvs⟩
              refine ⟨nofun, ?_⟩
              rintro g ⟨⟩
              refine ⟨us ++ vs, ?_, hus.append hvs⟩
              rw [hts, List.append_assoc, ← hmid]
          | done ds last =>
              rcases hMore.1 ds last hds with
                ⟨vs, closing, hmid, hLast, hvs⟩
              refine ⟨?_, nofun⟩
              rintro es rest ⟨⟩
              refine ⟨us ++ vs, closing, ?_, hLast,
                hus.append hvs⟩
              rw [hts, List.append_assoc, ← hmid]

/- A block accounts for its braces if declarations do. -/
theorem Decl.accounts_block
    (hDeclaration :
      ∀ ts, Accounts ts (Decl.parse set depth ts))
    (hOpening : t.kind = .leftBrace)
    (ts : List Token) :
    Accounts (t :: ts) (parseBlock set depth ts).inBlock := by
  have hBlock := nests_of_parseBlock hDeclaration ts
  cases hds : parseBlock set depth ts with
  | done ds rest =>
      rcases hBlock.1 ds rest hds with
        ⟨us, closing, rfl, hClosing, hus⟩
      refine ⟨t :: us ++ [closing],
        by simp [inBlock, Attempt.rest],
        ?_⟩
      exact ((Token.Nests.leftBrace hOpening).append
        (hus.add 1)).append (.rightBrace hClosing)
  | failed f =>
      rcases hBlock.2 f hds with ⟨us, rfl, hus⟩
      exact ⟨t :: us, rfl,
        (Token.Nests.leftBrace hOpening).append (hus.add 1)⟩

/- Reading a statement accounts for its braces. -/
theorem Stmt.accounts_parse
    (set : Setting)
    (depth : Nat)
    (ts : List Token) :
    Accounts ts (parse set depth ts) := by
  induction depth generalizing ts with
  | zero =>
      rw [parse]
      exact accounts_fail _ _ _
  | succ depth ih =>
      cases ts with
      | nil =>
          rw [parse]
          exact Expr.accounts_parseTerminated set depth _ _
      | cons t ts =>
          by_cases hPrint : t.kind = .printWord
          · rw [parse_of_printWord hPrint]
            exact (Expr.accounts_parseTerminated set depth _
              ts).cons (by simp [hPrint]) (by simp [hPrint])
          by_cases hBlock : t.kind = .leftBrace
          · rw [parse_of_leftBrace hBlock]
            apply (Decl.accounts_block
              (Decl.accounts_parseWith ih) hBlock ts).andThen
            intro ds rest
            exact accounts_skipSemicolon _ rest
          by_cases hIf : t.kind = .ifWord
          · rw [parse_of_ifWord hIf]
            refine Accounts.cons ?_
              (by simp [hIf]) (by simp [hIf])
            apply (accounts_expect set .leftParen
              (by decide) (by decide) "(" ts).andThen
            intro _ mid
            apply (Expr.accounts_parse set _ _ _ mid).andThen
            intro condition mid
            apply (accounts_expect set .rightParen
              (by decide) (by decide) ")" mid).andThen
            intro _ mid
            apply (ih mid).andThen
            intro body mid
            cases mid with
            | nil => exact accounts_done _ _
            | cons u after =>
                rw [parseOther]
                split
                · rename_i hElse
                  exact ((ih after).andThen fun other rest =>
                    accounts_done _ _).cons
                    (by simp [hElse]) (by simp [hElse])
                · exact accounts_done _ _
          rw [parse_of_expression hPrint hBlock hIf]
          exact Expr.accounts_parseTerminated set depth _ _

/- Reading a declaration accounts for its braces. -/
theorem Decl.accounts_parse
    (set : Setting)
    (depth : Nat)
    (ts : List Token) :
    Accounts ts (parse set depth ts) :=
  accounts_parseWith (Stmt.accounts_parse set depth) ts

end Lox
