import Lox.Proofs.Reading.Cursor

/-
  Counting what is open, as reading with what is left.

  The reader that counts levels and parentheses finds the
  same expressions and errors as the one that is told how
  many of them are left.  Its cursor is always at the tokens
  that the other one has left, and where it goes on, it is in
  as many blocks and parentheses as where it began.

  Key definitions include:
    * `Reader.At`
    * `Reader.Continues`
    * `Reader.Follows`

  Key theorems include:
    * `Reader.Follows.andThen`
    * `Reader.follows_below_succ`
    * `Reader.follows_readExpr`
-/

namespace Lox

namespace Reader

variable {α β : Type} {d d' : Int}
variable {limits : Limits} {p q r : Reader}
variable {src us vs : List Token} {t : Token}

open Reply

------------------------------------------------------------
-- Places
------------------------------------------------------------

/-
  Whether a reader of tokens is at those that are left of the
  ones before their end.
-/
structure At
    (src us : List Token)
    (p : Reader) : Prop where
  tokens_eq : p.tokens = Token.terminated src
  suffix : us <:+ Decl.body src
  pos_eq : p.pos = Decl.cursor src us

/- The limits, and the line on which tokens end. -/
def setting
    (limits : Limits)
    (src : List Token) : Setting :=
  ⟨limits, Decl.endLine src⟩

namespace At

/- Counters do not matter to where a reader is. -/
theorem of_pos_eq
    (h : At src us p)
    (hTokens : q.tokens = p.tokens)
    (hPos : q.pos = p.pos) :
    At src us q :=
  ⟨hTokens.trans h.tokens_eq, h.suffix, hPos.trans h.pos_eq⟩

/- At the cursor is the next token. -/
theorem isNext
    (h : At src us p) :
    p.current.IsNext (Decl.endLine src) us := by
  rcases Decl.exists_isNext_of_suffix h.suffix with
    ⟨t, hToken, hNext⟩
  rw [← h.tokens_eq, ← h.pos_eq, p.current_eq] at hToken
  cases hToken
  exact hNext

/- It is on the line on which the tokens that are left are. -/
theorem line_eq
    (h : At src us p) :
    p.current.line = (setting limits src).lineAt us := by
  have hNext := h.isNext
  cases us with
  | nil => exact hNext.2
  | cons u us =>
      rw [show p.current = u from hNext]
      rfl

/- At the end, it is one that ends the input. -/
theorem kind_of_nil
    (h : At src [] p) :
    p.current.kind = .endOfInput :=
  h.isNext.1

/- Before the end, it is the first one that is left. -/
theorem current_eq
    (h : At src (t :: us) p) :
    p.current = t :=
  h.isNext

/- That one does not end the input. -/
theorem kind_ne_endOfInput
    (h : At src (t :: us) p) :
    ¬ p.current.kind = .endOfInput := by
  have hNot :=
    Decl.ne_endOfInput_of_suffix h.suffix t
      List.mem_cons_self
  rw [h.current_eq]
  exact ne_of_beq_false (by simpa using hNot)

/- Tokens before the end are behind the cursor, or left. -/
theorem pos_add_length
    (h : At src us p) :
    p.pos + us.length = (Decl.body src).length := by
  have hLength := h.suffix.length_le
  rw [h.pos_eq, Decl.cursor]
  omega

/-
  What holds neither of the first token that is left nor of
  the end does not hold of the token at the cursor.
-/
theorem not_of_head?
    {holds : Kind → Bool}
    (h : At src us p)
    (hEnd : ¬ holds .endOfInput = true)
    (hHead : ∀ t ∈ us.head?, ¬ holds t.kind = true) :
    ¬ holds p.current.kind = true := by
  cases us with
  | nil =>
      rw [h.kind_of_nil]
      exact hEnd
  | cons t us =>
      rw [h.current_eq]
      exact hHead t rfl

/- After moving on, the tokens after it are left. -/
theorem advance
    (h : At src (t :: us) p) :
    At src us p.advance := by
  have hSuffix : us <:+ Decl.body src :=
    (List.suffix_cons t us).trans h.suffix
  have hLength := hSuffix.length_le
  have hPos := h.pos_add_length
  refine ⟨h.tokens_eq, hSuffix, ?_⟩
  change p.next = _
  rw [next, if_neg h.kind_ne_endOfInput, Decl.cursor]
  rw [List.length_cons] at hPos
  omega

/- Where fewer tokens are left, fewer are ahead. -/
theorem length_ahead_lt
    (hp : At src us p)
    (hq : At src vs q)
    (h : vs.length < us.length) :
    q.ahead.length < p.ahead.length := by
  have hPos := p.pos_lt
  have hp' := hp.pos_add_length
  have hq' := hq.pos_add_length
  simp only [ahead, List.length_drop, hp.tokens_eq,
    hq.tokens_eq] at *
  omega

end At

------------------------------------------------------------
-- Replies
------------------------------------------------------------

/-
  Whether a reader that went on from another one is at tokens
  and again in as many blocks and parentheses.
-/
structure Continues
    (src us : List Token)
    (p q : Reader) : Prop where
  at_tokens : At src us q
  blocks_eq : q.blocks = p.blocks
  groups_eq : q.groups = p.groups

/-
  Whether a reader, from where it stands, replies what an
  attempt gives.  Blocks that an attempt says were open were
  counted when the error was raised.
-/
inductive Follows
    (src : List Token)
    (p : Reader) :
    Reply α d → Attempt α → Prop where
  | done {x : α} {us : List Token} {q : Reader}
      (kept : q.depth = d)
      (h : Continues src us p q) :
      Follows src p (.done x q kept) (.done x us)
  | raised {f : Failure} {q : Reader}
      (hAt : At src f.rest q)
      (hBlocks : q.blocks = p.blocks + f.opened) :
      Follows src p (.raised f.error q) (.failed f)

namespace Continues

/- Moving on keeps a reader in what it is in. -/
theorem advance
    (h : Continues src (t :: us) p q) :
    Continues src us p q.advance :=
  ⟨h.at_tokens.advance, h.blocks_eq, h.groups_eq⟩

/- So does counting a level. -/
theorem enter
    (h : Continues src us p q) :
    Continues src us p q.enter :=
  ⟨h.at_tokens.of_pos_eq rfl rfl, h.blocks_eq, h.groups_eq⟩

/- It may still open as many parentheses. -/
theorem groupRoom_eq
    (h : Continues src us p q) :
    groupRoom limits q = groupRoom limits p := by
  unfold groupRoom
  rw [h.groups_eq]

/- The semicolon that may end a statement is skipped. -/
theorem eatSemicolon
    (h : Continues src us p q) :
    Continues src (skipSemicolon us) p q.eatSemicolon := by
  unfold Reader.eatSemicolon
  cases us with
  | nil =>
      rw [if_neg (by simp [h.at_tokens.kind_of_nil])]
      exact h
  | cons t us =>
      rw [h.at_tokens.current_eq, skipSemicolon]
      split
      · exact h.advance
      · exact h

end Continues

/- A reader continues where it is. -/
theorem At.continues
    (h : At src us p) :
    Continues src us p p :=
  ⟨h, rfl, rfl⟩

/- An error is raised where a reader is. -/
theorem follows_raised
    {line : Int}
    {cause : ParseError.Cause}
    (h : Continues src us p q) :
    Follows src p
      (raised ⟨line, cause⟩ q : Reply α d)
      (.fail line cause us) :=
  .raised (f := ⟨⟨line, cause⟩, us, 0⟩) h.at_tokens
    h.blocks_eq

/- Its line is that of the next token, or of the end. -/
theorem follows_raise
    {cause : ParseError.Cause}
    (h : Continues src us p q) :
    Follows src p
      (raise cause q : Reply α d)
      (.fail ((setting limits src).lineAt us) cause us) := by
  rw [← h.at_tokens.line_eq]
  exact follows_raised h

namespace Follows

variable {r : Reply α d} {a : Attempt α}

/- A reader that went on is one that it went on from. -/
theorem of_continues
    (hq : Continues src us p q)
    (h : Follows src q r a) :
    Follows src p r a := by
  cases h with
  | done kept h =>
      exact .done kept
        ⟨h.at_tokens, h.blocks_eq.trans hq.blocks_eq,
          h.groups_eq.trans hq.groups_eq⟩
  | raised hAt h =>
      exact .raised hAt (hq.blocks_eq ▸ h)

/- Reading on follows trying on. -/
theorem andThen
    {next :
      (x : α) → (q : Reader) → q.depth = d → Reply β d'}
    {step : α → List Token → Attempt β}
    (h : Follows src p r a)
    (hNext :
      ∀ x us q kept, a = .done x us →
        Continues src us p q →
        Follows src p (next x q kept) (step x us)) :
    Follows src p (r.andThen next) (a.andThen step) := by
  cases h with
  | done kept h => exact hNext _ _ _ kept rfl h
  | raised hAt h => exact .raised hAt h

/- After an error, nothing is read on. -/
theorem andThen_failed
    {next :
      (x : α) → (q : Reader) → q.depth = d → Reply β d'}
    {f : Failure}
    (h : Follows src p r (.failed f)) :
    Follows src p (r.andThen next) (.failed f) := by
  cases h with
  | raised hAt h => exact .raised hAt h

/- Levels that are given up do not matter. -/
theorem leaving
    {levels : Int}
    (hLevels : d = d' + levels)
    (h : Follows src p r a) :
    Follows src p (r.leaving levels hLevels) a := by
  cases h with
  | done kept h =>
      exact .done _
        ⟨h.at_tokens.of_pos_eq rfl rfl, h.blocks_eq,
          h.groups_eq⟩
  | raised hAt h =>
      exact .raised (hAt.of_pos_eq rfl rfl) h

/- A parenthesis is given up after it was counted. -/
theorem closingGroup
    (h : Follows src p.openGroup r a) :
    Follows src p r.closingGroup a := by
  cases h with
  | @done _ _ q kept h =>
      refine .done (q := q.closeGroup) kept
        ⟨h.at_tokens.of_pos_eq rfl rfl, h.blocks_eq, ?_⟩
      have hGroups := h.groups_eq
      simp only [openGroup, closeGroup] at *
      omega
  | raised hAt h =>
      exact .raised (hAt.of_pos_eq rfl rfl) h

end Follows

/- There is no level below, if none is left. -/
theorem follows_below_zero
    {kept : q.depth = d}
    {step :
      ¬ limits.depth < q.enter.depth →
        Reply α q.enter.depth}
    (h : Continues src us p q)
    (hRoom : room limits q = 0) :
    Follows src p
      (below limits q kept step)
      (.fail ((setting limits src).lineAt us)
        (.nestingTooDeep limits.depth) us) := by
  unfold below
  rw [dif_pos (room_eq_zero.mp hRoom)]
  exact follows_raise h.enter

/- Otherwise reading goes on there, with one level less. -/
theorem follows_below_succ
    {n : Nat}
    {kept : q.depth = d}
    {step :
      ¬ limits.depth < q.enter.depth →
        Reply α q.enter.depth}
    {a : Attempt α}
    (hRoom : room limits q = n + 1)
    (hStep :
      ∀ h, room limits q.enter = n →
        Follows src p (step h) a) :
    Follows src p (below limits q kept step) a := by
  rcases room_enter hRoom with ⟨hWithin, hBelow⟩
  unfold below
  rw [dif_neg hWithin]
  exact (hStep hWithin hBelow).leaving _

/- A token that has to follow. -/
theorem follows_eat
    {kind : Kind}
    {expected : String}
    {kept : q.depth = d}
    (hKind : kind ≠ .endOfInput)
    (h : Continues src us p q) :
    Follows src p
      (eat kind expected q kept)
      (Attempt.expect (setting limits src) kind expected
        us) := by
  have hAt := h.at_tokens
  unfold eat
  cases us with
  | nil =>
      rw [hAt.kind_of_nil, if_neg hKind.symm, if_pos rfl]
      exact follows_raise h
  | cons t us =>
      obtain rfl := hAt.current_eq
      rw [Attempt.expect, if_neg hAt.kind_ne_endOfInput]
      split
      · exact .done (q := q.advance) kept h.advance
      · exact follows_raised h

------------------------------------------------------------
-- Expressions
------------------------------------------------------------

/- What is assigned, if the target can be assigned to. -/
theorem follows_assignTo
    {equals : Token}
    {left value : Expr}
    {kept : q.depth = d}
    (h : Continues src us p q) :
    Follows src p
      (assignTo equals left value q kept)
      (Expr.assignTo equals left value us) := by
  cases left with
  | identifier name => exact .done kept h
  | _ => exact follows_raised h

/-
  Reading an expression, and going on with a chain, with the
  levels and the parentheses that are left.
-/
theorem follows_readExpr_and_readChain
    (limits : Limits)
    (src : List Token) :
    (∀ level depth groups us, ∀ p q,
      Continues src us p q →
        room limits q = depth →
        groupRoom limits p = groups →
        Follows src p
          (readExpr limits level q)
          (Expr.parse (setting limits src) level depth groups
            us)) ∧
    (∀ c left depth groups us,
      ∀ p q (base levels : Int)
          (kept : q.depth = base + levels),
        Continues src us p q →
          room limits q = depth →
          groupRoom limits p = groups →
          Follows src p
            (readChain limits c levels left q kept)
            (Expr.parseChain (setting limits src) c left depth
              groups us)) := by
  apply Expr.parse_induction
  case noExpressionRoom =>
    intro groups us p q h hRoom hGroups
    rw [readExpr, Expr.parse]
    exact follows_below_zero h hRoom
  case expression =>
    intro depth groups us ih p q h hRoom hGroups
    rw [readExpr, Expr.parse]
    apply follows_below_succ hRoom
    intro _ hRoom
    exact ih p q.enter h.enter hRoom hGroups
  case assignment =>
    intro depth groups us ihLeft ihValue p q h hRoom hGroups
    rw [readExpr, Expr.parse]
    apply (ihLeft p q h hRoom hGroups).andThen
    intro left us r hr _ h
    have hAt := h.at_tokens
    cases us with
    | nil =>
        dsimp only
        rw [if_neg (by simp [hAt.kind_of_nil])]
        exact .done hr h
    | cons t us =>
        obtain rfl := hAt.current_eq
        dsimp only
        split
        · have hRoom : room limits r.advance = depth :=
            (room_eq hr).trans hRoom
          cases depth with
          | zero =>
              exact (follows_below_zero h.advance
                hRoom).andThen_failed
          | succ depth =>
              refine (follows_below_succ hRoom ?_).andThen ?_
              · intro _ hRoom
                exact ihValue depth us rfl p r.advance.enter
                  h.advance.enter hRoom hGroups
              · intro value us s hs _ h
                exact follows_assignTo h
        · exact .done hr h
  case chain =>
    intro c depth groups us ihOperand ihChain p q h hRoom
      hGroups
    rw [readExpr, Expr.parse]
    apply (ihOperand p q h hRoom hGroups).andThen
    intro left us r hr _ h
    exact ihChain left us p r _ _ _ h
      ((room_eq hr).trans hRoom) hGroups
  case noOperatorRoom =>
    intro groups op us hOp p q h hRoom hGroups
    obtain rfl := h.at_tokens.current_eq
    rw [readExpr, if_pos hOp,
      Expr.parse_zero_of_isPrefixOperator hOp]
    exact (follows_below_zero h.advance hRoom).andThen_failed
  case operator =>
    intro depth groups op us hOp ih p q h hRoom hGroups
    obtain rfl := h.at_tokens.current_eq
    rw [readExpr, if_pos hOp,
      Expr.parse_of_isPrefixOperator hOp]
    refine
      (follows_below_succ (q := q.advance) hRoom ?_).andThen
        ?_
    · intro _ hRoom
      exact ih p q.advance.enter h.advance.enter hRoom hGroups
    · intro operand us r hr _ h
      exact .done hr h
  case operand =>
    intro depth groups us hOperand ih p q h hRoom hGroups
    rw [readExpr, Expr.parse_unary_eq_primary hOperand,
      if_neg (h.at_tokens.not_of_head? (by decide) hOperand)]
    exact ih p q h hRoom hGroups
  case missing =>
    intro depth groups p q h hRoom hGroups
    rw [readExpr, if_pos h.at_tokens.kind_of_nil, Expr.parse]
    exact follows_raise h
  case literal =>
    intro depth groups t us hLiteral p q h hRoom hGroups
    obtain rfl := h.at_tokens.current_eq
    rw [readExpr, if_neg h.at_tokens.kind_ne_endOfInput,
      if_pos hLiteral, Expr.parse_of_isLiteral hLiteral]
    exact .done (q := q.advance) rfl h.advance
  case identifier =>
    intro depth groups t us hName p q h hRoom hGroups
    obtain rfl := h.at_tokens.current_eq
    rw [readExpr, if_neg h.at_tokens.kind_ne_endOfInput,
      if_neg (by simp [hName, Kind.isLiteral]), if_pos hName,
      Expr.parse_of_identifier hName]
    exact .done (q := q.advance) rfl h.advance
  case noGroupRoom =>
    intro depth t us hOpening p q h hRoom hGroups
    obtain rfl := h.at_tokens.current_eq
    rw [readExpr, if_neg h.at_tokens.kind_ne_endOfInput,
      if_neg (by simp [hOpening, Kind.isLiteral]),
      if_neg (by simp [hOpening]), if_pos hOpening,
      Expr.parse_zero_of_leftParen hOpening]
    have hOpened : At src us q.advance.openGroup :=
      h.advance.at_tokens.of_pos_eq rfl rfl
    rw [← h.advance.groupRoom_eq] at hGroups
    dsimp only
    rw [if_pos (groups_openGroup hGroups)]
    exact .raised (f := ⟨⟨_, _⟩, us, 0⟩) hOpened
      h.blocks_eq
  case group =>
    intro depth groups t us hOpening ih p q h hRoom hGroups
    obtain rfl := h.at_tokens.current_eq
    rw [readExpr, if_neg h.at_tokens.kind_ne_endOfInput,
      if_neg (by simp [hOpening, Kind.isLiteral]),
      if_neg (by simp [hOpening]), if_pos hOpening,
      Expr.parse_of_leftParen hOpening]
    have hOpened : At src us q.advance.openGroup :=
      h.advance.at_tokens.of_pos_eq rfl rfl
    rw [← h.advance.groupRoom_eq] at hGroups
    rcases groupRoom_openGroup hGroups with ⟨hFew, hLeft⟩
    -- Inside, reading goes on from one parenthesis more.
    have hInner :=
      ih q.advance.openGroup q.advance.openGroup
        hOpened.continues hRoom hLeft
    dsimp only
    rw [if_neg hFew]
    apply
      (hInner.closingGroup.of_continues h.advance).andThen
    intro inner us r hr _ h
    apply (follows_eat (by decide) h).andThen
    intro _ us s hs _ h
    exact .done hs h
  case other =>
    intro depth groups t us hLiteral hName hOpening p q h
      hRoom hGroups
    obtain rfl := h.at_tokens.current_eq
    rw [readExpr, if_neg h.at_tokens.kind_ne_endOfInput,
      if_neg hLiteral, if_neg hName, if_neg hOpening,
      Expr.parse_of_not_primary hLiteral hName hOpening]
    exact follows_raised h
  case noLinkRoom =>
    intro c left groups op us hOp p q base levels kept h
      hRoom hGroups
    obtain rfl := h.at_tokens.current_eq
    rw [readChain, if_pos hOp,
      Expr.parseChain_zero_of_holds hOp]
    rw [← room_advance] at hRoom
    dsimp only
    rw [dif_pos (room_eq_zero.mp hRoom)]
    exact (follows_raise h.advance.enter).leaving _
  case link =>
    intro c left depth groups op us hOp ihOperand ihChain p q
      base levels kept h hRoom hGroups
    obtain rfl := h.at_tokens.current_eq
    rw [readChain, if_pos hOp, Expr.parseChain_of_holds hOp]
    rw [← room_advance] at hRoom
    rcases room_enter hRoom with ⟨hWithin, hBelow⟩
    have hOperand :=
      ihOperand p q.advance.enter h.advance.enter hBelow
        hGroups
    dsimp only
    rw [dif_neg hWithin]
    -- The levels of the chain are given up at its end, or
    -- where reading an operand fails.
    generalize readExpr limits c.operand q.advance.enter =
      reply at hOperand ⊢
    generalize Expr.parse _ _ _ _ us = attempt
      at hOperand ⊢
    cases hOperand with
    | @done right us r hr h =>
        exact ihChain right us p r _ _ _ h
          ((room_eq hr).trans hBelow) hGroups
    | raised hAt hBlocks =>
        exact .raised (hAt.of_pos_eq rfl rfl) hBlocks
  case stop =>
    intro c left depth groups us hStop p q base levels kept h
      hRoom hGroups
    rw [readChain, Expr.parseChain_eq_done hStop,
      if_neg (h.at_tokens.not_of_head? (by cases c <;> decide)
        hStop)]
    exact .leaving _ (.done kept h)

/- An expression is read as it is tried. -/
theorem follows_readExpr
    {level : Level}
    {depth groups : Nat}
    (h : Continues src us p q)
    (hRoom : room limits q = depth)
    (hGroups : groupRoom limits p = groups) :
    Follows src p
      (readExpr limits level q)
      (Expr.parse (setting limits src) level depth groups
        us) :=
  (follows_readExpr_and_readChain limits src).1 level depth
    groups us p q h hRoom hGroups

end Reader

end Lox
