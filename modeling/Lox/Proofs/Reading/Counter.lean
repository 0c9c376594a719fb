import Lox.Proofs.Reading.Follow

/-
  Programs are read by a cursor and counters.

  The reader that counts what it is in, and that skips tokens
  after an error until the blocks that it counted are closed,
  reads the same programs as the one that is told what is
  left and learns from an error how many blocks were open.
  After an error it stands at the boundary and has forgotten
  everything that it was in.

  Key definitions include:
    * `Reader.FollowsStmt`
    * `Reader.Outside`

  Key theorems include:
    * `Reader.followsStmt`
    * `Reader.FollowsStmt.decl`
    * `Reader.FollowsStmt.block`
    * `Reader.Outside.recover`
    * `Decl.programWithin_eq_readAll`
-/

namespace Lox

namespace Reader

variable {α β : Type} {d : Int}
variable {limits : Limits} {p q r : Reader}
variable {src us vs : List Token} {t : Token} {depth : Nat}

open Reply

------------------------------------------------------------
-- Simple Statements
------------------------------------------------------------

/- An expression and the semicolon it may end with. -/
theorem follows_readTerminated
    {make : Expr → α}
    {kept : q.depth = d}
    (h : Continues src us p q)
    (hGroups : groupRoom limits p = limits.groupRoom)
    (hRoom : room limits q = depth) :
    Follows src p
      (readTerminated limits make q kept)
      (Expr.parseTerminated (setting limits src) depth make
        us) := by
  apply (follows_readExpr h hRoom hGroups).andThen
  intro e us r hr _ h
  exact .done _ h.eatSemicolon

/- What follows the word that declares a variable. -/
theorem follows_readVariable
    {kept : q.depth = d}
    (h : Continues src us p q)
    (hGroups : groupRoom limits p = limits.groupRoom)
    (hRoom : room limits q = depth) :
    Follows src p
      (readVariable limits q kept)
      (Decl.parseVariable (setting limits src) depth us) := by
  unfold readVariable Decl.parseVariable
  cases us with
  | nil =>
      have hKind := h.at_tokens.kind_of_nil
      rw [if_neg (by simp [hKind]), if_pos hKind]
      exact follows_raise h
  | cons name us =>
      obtain rfl := h.at_tokens.current_eq
      rw [if_neg h.at_tokens.kind_ne_endOfInput]
      dsimp only
      split
      · have h := h.advance
        cases us with
        | nil =>
            rw [if_neg (by simp [h.at_tokens.kind_of_nil])]
            exact .done _ h.eatSemicolon
        | cons equals us =>
            obtain rfl := h.at_tokens.current_eq
            dsimp only
            split
            · exact follows_readTerminated h.advance hGroups
                hRoom
            · exact .done _ h.eatSemicolon
      · exact follows_raised h

------------------------------------------------------------
-- Statements
------------------------------------------------------------

/-
  After a block that was counted, a reader is in one block
  less; and if there is an error in it, in one more.
-/
theorem Follows.inBlock
    {r : Reply α d}
    {a : Attempt α}
    {next :
      (x : α) → (q : Reader) → q.depth = d → Reply β d}
    {step : α → List Token → Attempt β}
    (hq : Continues src us p q)
    (h : Follows src q.openBlock r a)
    (hNext :
      ∀ x vs r kept, Continues src vs p r.closeBlock →
        Follows src p (next x r kept) (step x vs)) :
    Follows src p (r.andThen next)
      (a.inBlock.andThen step) := by
  have hBlocks := hq.blocks_eq
  cases h with
  | @done x vs r kept h =>
      have hInner := h.blocks_eq
      have hClosed : r.closeBlock.blocks = p.blocks := by
        simp only [openBlock, closeBlock] at *
        omega
      exact hNext x vs r kept
        ⟨h.at_tokens.of_pos_eq rfl rfl, hClosed,
          h.groups_eq.trans hq.groups_eq⟩
  | @raised f r hAt hInner =>
      have hOpen : r.blocks = p.blocks + (f.opened + 1) := by
        simp only [openBlock] at hInner
        omega
      exact .raised (f := { f with opened := f.opened + 1 })
        hAt hOpen

/-
  Whether statements are read at a number of levels as they
  are tried there.
-/
def FollowsStmt
    (limits : Limits)
    (src : List Token)
    (depth : Nat) : Prop :=
  ∀ us p q,
    Continues src us p q →
      groupRoom limits p = limits.groupRoom →
      room limits q = depth →
      Follows src p
        (readStmt limits q)
        (Stmt.parse (setting limits src) depth us)

namespace FollowsStmt

/- Then declarations are. -/
theorem decl
    (hStmt : FollowsStmt limits src depth)
    (h : Continues src us p q)
    (hGroups : groupRoom limits p = limits.groupRoom)
    (hRoom : room limits q = depth) :
    Follows src p
      (readDecl limits q)
      (Decl.parse (setting limits src) depth us) := by
  have hOther :
      Follows src p
        ((readStmt limits q).andThen fun s r hr =>
          .done (Decl.statement s) r hr)
        ((Stmt.parse (setting limits src) depth us).andThen
          fun s rest => .done (Decl.statement s) rest) := by
    apply (hStmt us p q h hGroups hRoom).andThen
    intro s us r hr _ h
    exact .done hr h
  rw [readDecl]
  cases us with
  | nil =>
      rw [if_neg (by simp [h.at_tokens.kind_of_nil]),
        Decl.parse_nil]
      exact hOther
  | cons t us =>
      obtain rfl := h.at_tokens.current_eq
      split
      · rename_i hWord
        rw [Decl.parse_of_varWord hWord]
        exact follows_readVariable h.advance hGroups hRoom
      · rename_i hWord
        rw [Decl.parse_of_not_varWord hWord]
        exact hOther

/- So are the declarations of a block. -/
theorem block
    (hStmt : FollowsStmt limits src depth)
    (h : Continues src us p q)
    (hGroups : groupRoom limits p = limits.groupRoom)
    (hRoom : room limits q = depth) :
    Follows src p
      (readBlock limits q)
      (Decl.parseBlock (setting limits src) depth us) := by
  induction us
    using Decl.parseBlock_induction (setting limits src) depth
    generalizing q with
  | nil =>
      have hKind := h.at_tokens.kind_of_nil
      rw [readBlock, if_neg (by simp [hKind]), if_pos hKind,
        Decl.parseBlock_nil]
      exact follows_raise h
  | closing t us hClosing =>
      obtain rfl := h.at_tokens.current_eq
      rw [readBlock, if_pos hClosing,
        Decl.parseBlock_of_rightBrace hClosing]
      exact .done (q := q.advance) rfl h.advance
  | declaration t us hClosing ih =>
      obtain rfl := h.at_tokens.current_eq
      rw [readBlock, if_neg hClosing,
        if_neg h.at_tokens.kind_ne_endOfInput,
        Decl.parseBlock_of_not_rightBrace hClosing]
      apply (hStmt.decl h hGroups hRoom).andThen
      intro d mid r hr hDecl hMid
      have hLess :=
        h.at_tokens.length_ahead_lt hMid.at_tokens
          (Decl.length_lt_of_parse hDecl)
      rw [dif_pos hLess]
      have hMore :=
        ih d mid hDecl hMid ((room_eq hr).trans hRoom)
      apply hMore.andThen
      intro ds rest s hs _ h
      exact .done _ h

/- So is what comes after the branch of a condition. -/
theorem other
    {condition : Expr}
    {body : Stmt}
    {kept : q.depth = d}
    (hStmt : FollowsStmt limits src depth)
    (h : Continues src us p q)
    (hGroups : groupRoom limits p = limits.groupRoom)
    (hRoom : room limits q = depth) :
    Follows src p
      (if q.current.kind = .elseWord then
        (readStmt limits q.advance).andThen fun other r hr =>
          done (.ifElse condition body other) r
            (hr.trans kept)
      else done (.ifThen condition body) q kept)
      (Stmt.parseOther (setting limits src) depth condition
        body us) := by
  unfold Stmt.parseOther
  cases us with
  | nil =>
      rw [if_neg (by simp [h.at_tokens.kind_of_nil])]
      exact .done kept h
  | cons t us =>
      obtain rfl := h.at_tokens.current_eq
      dsimp only
      split
      · apply (hStmt us p q.advance h.advance hGroups
          hRoom).andThen
        intro branch us r hr _ h
        exact .done _ h
      · exact .done kept h

end FollowsStmt

/- Without a level left, no statement is read. -/
theorem followsStmt_zero :
    FollowsStmt limits src 0 := by
  intro us p q h hGroups hRoom
  rw [readStmt, Stmt.parse]
  exact follows_below_zero h hRoom

/- With one more, statements have those that are left. -/
theorem followsStmt_succ
    (hBelow : FollowsStmt limits src depth) :
    FollowsStmt limits src (depth + 1) := by
  intro us p q h hGroups hRoom
  rw [readStmt]
  apply follows_below_succ hRoom
  intro _ hRoom
  have h := h.enter
  dsimp only
  cases us with
  | nil =>
      have hKind : q.current.kind = .endOfInput :=
        h.at_tokens.kind_of_nil
      rw [if_neg (by simp [hKind]), if_neg (by simp [hKind]),
        if_neg (by simp [hKind]), Stmt.parse]
      exact follows_readTerminated h hGroups hRoom
  | cons t us =>
      obtain rfl : q.current = t := h.at_tokens.current_eq
      split
      · rename_i hPrint
        rw [Stmt.parse_of_printWord hPrint]
        exact follows_readTerminated h.advance hGroups hRoom
      split
      · rename_i hBlock
        rw [Stmt.parse_of_leftBrace hBlock]
        have hOpened :
            At src us q.enter.advance.openBlock :=
          h.advance.at_tokens.of_pos_eq rfl rfl
        have hBody :=
          hBelow.block hOpened.continues
            (h.advance.groupRoom_eq.trans hGroups) hRoom
        apply Follows.inBlock h.advance hBody
        intro body rest r hr h
        exact .done _ h.eatSemicolon
      split
      · rename_i hIf
        rw [Stmt.parse_of_ifWord hIf]
        apply (follows_eat (by decide) h.advance).andThen
        intro _ us r hr _ h
        have hSame := (room_eq hr).trans hRoom
        apply (follows_readExpr h hSame hGroups).andThen
        intro condition us s hs _ h
        apply (follows_eat (by decide) h).andThen
        intro _ us u hu _ h
        have hSame := (room_eq hu).trans hRoom
        apply (hBelow us p u h hGroups hSame).andThen
        intro body us v hv _ h
        exact hBelow.other h hGroups
          ((room_eq hv).trans hSame)
      · rename_i hPrint hBlock hIf
        rw [Stmt.parse_of_expression hPrint hBlock hIf]
        exact follows_readTerminated h hGroups hRoom

/- Statements are read as they are tried, at any level. -/
theorem followsStmt
    (limits : Limits)
    (src : List Token)
    (depth : Nat) :
    FollowsStmt limits src depth := by
  induction depth with
  | zero => exact followsStmt_zero
  | succ depth ih => exact followsStmt_succ ih

------------------------------------------------------------
-- Recovery
------------------------------------------------------------

/- The reader stops behind what ends the skipped tokens. -/
theorem skip_of_isEnding
    {mustSkip : Bool}
    {opened : Nat}
    (h : p.current.IsEnding opened) :
    p.skip mustSkip opened = p.advance := by
  have hStart := h.startsStatement_eq_false
  rw [skip]
  rcases h with ⟨hKind, rfl⟩ | ⟨hKind, rfl⟩
  · simp [hKind, Kind.startsStatement]
  · simp [hKind]

/- Other tokens are skipped. -/
theorem skip_of_not_isEnding
    {mustSkip : Bool}
    {opened : Nat}
    (hEnd : ¬ p.current.kind = .endOfInput)
    (hStart :
      ¬ (!mustSkip && opened == 0 &&
        p.current.kind.startsStatement) = true)
    (hEnding : ¬ p.current.IsEnding opened) :
    p.skip mustSkip opened =
      p.advance.skip false (p.current.openAfter opened) := by
  have hSemicolon :
      ¬ (p.current.kind = .semicolon ∧ opened = 0) :=
    fun h => hEnding (.inl h)
  rw [skip, dif_neg hEnd, if_neg hStart, if_neg hSemicolon]
  by_cases hOpening : p.current.kind = .leftBrace
  · rw [if_pos hOpening, Token.openAfter]
    simp only [hOpening]
  rw [if_neg hOpening]
  by_cases hClosing : p.current.kind = .rightBrace
  · have hOpen : p.current.openAfter opened = opened - 1 := by
      rw [Token.openAfter]
      simp only [hClosing]
    by_cases hNone : opened = 0
    · rw [if_neg (by omega), hOpen, hNone]
    · have hOne : ¬ opened = 1 :=
        fun h => hEnding (.inr ⟨hClosing, h⟩)
      rw [if_pos ⟨hClosing, by omega⟩, if_neg (by omega),
        hOpen]
  · rw [if_neg fun h => hClosing h.1]
    unfold Token.openAfter
    split
    · contradiction
    · contradiction
    · rfl

/-
  Whether a reader is at tokens, and in no block, on no level
  and in no parenthesis.
-/
structure Outside
    (src us : List Token)
    (p : Reader) : Prop where
  at_tokens : At src us p
  blocks_eq : p.blocks = 0
  depth_eq : p.depth = 0
  groups_eq : p.groups = 0

namespace Outside

/- Moving on counts nothing. -/
theorem advance
    (h : Outside src (t :: us) p) :
    Outside src us p.advance :=
  ⟨h.at_tokens.advance, h.blocks_eq, h.depth_eq,
    h.groups_eq⟩

/- All levels are left. -/
theorem room_eq
    (h : Outside src us p) :
    room limits p = limits.depthRoom := by
  rw [room, h.depth_eq, Int.sub_zero]
  rfl

/- So are all parentheses. -/
theorem groupRoom_eq
    (h : Outside src us p) :
    groupRoom limits p = limits.groupRoom := by
  rw [groupRoom, h.groups_eq, Int.sub_zero]
  rfl

/- Skipping tokens ends where reading resumes. -/
theorem skip
    {mustSkip : Bool}
    {opened : Nat}
    (h : Outside src us p) :
    Outside src (resume mustSkip opened us)
      (p.skip mustSkip opened) := by
  induction us generalizing p mustSkip opened with
  | nil =>
      rw [Reader.skip, dif_pos h.at_tokens.kind_of_nil]
      exact h
  | cons t us ih =>
      obtain rfl := h.at_tokens.current_eq
      have hEnd := h.at_tokens.kind_ne_endOfInput
      by_cases hStart :
          (!mustSkip && opened == 0 &&
            p.current.kind.startsStatement) = true
      · rw [Reader.skip, dif_neg hEnd, if_pos hStart]
        simp only [Bool.and_eq_true, Bool.not_eq_true',
          beq_iff_eq] at hStart
        rcases hStart with ⟨⟨rfl, rfl⟩, hStart⟩
        rw [resume_of_startsStatement hStart]
        exact h
      by_cases hEnding : p.current.IsEnding opened
      · rw [skip_of_isEnding hEnding,
          resume_of_isEnding hEnding]
        exact h.advance
      · rw [skip_of_not_isEnding hEnd hStart hEnding,
          resume_of_not_isEnding (by simpa using hStart)
            hEnding]
        exact ih h.advance

/- A declaration is read as it is tried. -/
theorem follows_readDecl
    (limits : Limits)
    (h : Outside src us p) :
    Follows src p
      (readDecl limits p)
      (Decl.parse (setting limits src) limits.depthRoom us) :=
  (followsStmt limits src limits.depthRoom).decl
    h.at_tokens.continues h.groupRoom_eq h.room_eq

/- After it, the reader is outside of everything again. -/
theorem done
    (hp : Outside src us p)
    (hq : Continues src vs p q)
    (hDepth : q.depth = p.depth) :
    Outside src vs q :=
  ⟨hq.at_tokens, hq.blocks_eq.trans hp.blocks_eq,
    hDepth.trans hp.depth_eq, hq.groups_eq.trans hp.groups_eq⟩

/-
  After an error in a declaration, a reader recovers at the
  boundary that the failed attempt leads to.
-/
theorem recover
    {f : Failure}
    (hp : Outside src us p)
    (hAt : At src f.rest q)
    (hBlocks : q.blocks = p.blocks + f.opened) :
    Outside src (f.boundary us) (q.recover p.pos) := by
  have hOpened : q.blocks = f.opened := by
    rw [hBlocks, hp.blocks_eq, Nat.zero_add]
  have hStuck :
      (q.pos == p.pos) = (f.rest.length == us.length) := by
    have hp' := hp.at_tokens.pos_add_length
    have hq' := hAt.pos_add_length
    rw [Bool.eq_iff_iff, beq_iff_eq, beq_iff_eq]
    omega
  unfold Reader.recover Failure.boundary
  rw [hStuck, hOpened]
  exact skip ⟨hAt.of_pos_eq rfl rfl, rfl, rfl, rfl⟩

------------------------------------------------------------
-- Programs
------------------------------------------------------------

/-
  Outside of everything, a program is read on as it is tried.
  The induction is on the turns, each of which leaves fewer
  tokens and a reader that is outside again.
-/
theorem parseAll_eq_readAll
    (h : Outside src us p) :
    Decl.parseAll (setting limits src) us =
      p.readAll limits := by
  induction us using Decl.parseAll_induction
      (setting limits src) generalizing p with
  | nil =>
      rw [Decl.parseAll_nil, readAll,
        if_pos h.at_tokens.kind_of_nil]
  | done t us d rest hParse ih =>
      have hEnd := h.at_tokens.kind_ne_endOfInput
      have hRead := h.follows_readDecl limits
      rw [Decl.parseAll_of_done hParse, readAll, if_neg hEnd]
      change Decl.parse _ limits.depthRoom _ = _ at hParse
      rw [hParse] at hRead
      generalize readDecl limits p = reply at hRead ⊢
      cases hRead with
      | done kept hNext =>
          have hLess :=
            h.at_tokens.length_ahead_lt hNext.at_tokens
              (Decl.length_lt_of_parse hParse)
          dsimp only
          rw [dif_pos hLess, ih (h.done hNext kept)]
  | failed t us f hParse ih =>
      have hEnd := h.at_tokens.kind_ne_endOfInput
      have hRead := h.follows_readDecl limits
      rw [Decl.parseAll_of_failed hParse, readAll,
        if_neg hEnd]
      change Decl.parse _ limits.depthRoom _ = _ at hParse
      rw [hParse] at hRead
      generalize readDecl limits p = reply at hRead ⊢
      cases hRead with
      | raised hAt hBlocks =>
          have hNext := h.recover hAt hBlocks
          have hLess :=
            h.at_tokens.length_ahead_lt hNext.at_tokens
              (f.length_boundary_lt hParse)
          dsimp only
          rw [dif_pos hLess, ih hNext]

/- A reader starts outside of everything, at all tokens. -/
theorem start
    (src : List Token) :
    Outside src (Decl.body src) (start src) := by
  refine ⟨⟨rfl, List.suffix_refl _, ?_⟩, rfl, rfl, rfl⟩
  exact (Nat.sub_self _).symm

end Outside

end Reader

/-
  Whatever the tokens and the limits are, the program that
  the tokens form is what a reader with a cursor and counters
  reads off them.
-/
theorem Decl.programWithin_eq_readAll
    (limits : Limits)
    (ts : List Token) :
    programWithin limits ts =
      (Reader.start ts).readAll limits :=
  (Reader.Outside.start ts).parseAll_eq_readAll

end Lox
