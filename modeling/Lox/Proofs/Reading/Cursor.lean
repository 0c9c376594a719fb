import Lox.Proofs.Reading.Termination

/-
  Reading token by token.

  A reader keeps a cursor into its tokens, of which the last
  one ends the input, and counts the blocks, the levels and
  the parentheses that it is in.  What it is about to enter
  is counted before the limit is looked at.  Levels and
  parentheses are given up again however reading in them
  ends, but those that are too many are not, and a block only
  if its end is read.  After an error the reader skips tokens
  until the blocks that were open are closed and a statement
  may start, and counts from nothing again.

  What is read is read at the depth that the reader started
  from, so that its levels bound how far it goes down.

  Key definitions include:
    * `Reader`
    * `Reader.advance`
    * `Reader.Reply`
    * `Reader.below`
    * `Reader.readExpr`
    * `Reader.readDecl`
    * `Reader.recover`
    * `Reader.readAll`
-/

namespace Lox

variable {α β : Type} {d d' : Int}

------------------------------------------------------------
-- Readers
------------------------------------------------------------

namespace Token

/- Tokens as they are read end the input. -/
theorem kind_of_getLast?_terminated
    {ts : List Token} :
    ∀ t ∈ (terminated ts).getLast?,
      t.kind = .endOfInput := by
  intro t ht
  unfold terminated at ht
  split at ht
  · cases ht
    rfl
  · rename_i u hLast
    split at ht
    · rename_i hKind
      rw [hLast] at ht
      cases ht
      exact hKind
    · rw [List.getLast?_concat] at ht
      cases ht
      rfl

/- So there is one of them. -/
theorem terminated_ne_nil
    (ts : List Token) :
    terminated ts ≠ [] := by
  rcases Decl.exists_terminated_eq ts with ⟨e, after, h, -⟩
  rw [h]
  exact List.append_ne_nil_of_right_ne_nil _
    (List.cons_ne_nil _ _)

end Token

/-
  Tokens, the place of the cursor in them, the token there,
  and what the reader is in.
-/
structure Reader where
  tokens : List Token
  pos : Nat
  current : Token
  blocks : Nat
  depth : Int
  groups : Int
  current_eq : tokens[pos]? = some current
  ended : ∀ t ∈ tokens.getLast?, t.kind = .endOfInput

namespace Reader

/- The place after the cursor, which an end has not. -/
def next
    (p : Reader) : Nat :=
  if p.current.kind = .endOfInput then p.pos else p.pos + 1

/- The cursor is within the tokens. -/
theorem pos_lt
    (p : Reader) :
    p.pos < p.tokens.length :=
  (List.getElem?_eq_some_iff.mp p.current_eq).1

/- So is the place after it. -/
theorem next_lt
    (p : Reader) :
    p.next < p.tokens.length := by
  have hPos := p.pos_lt
  unfold next
  split
  · exact hPos
  · rename_i hKind
    refine Nat.lt_of_le_of_ne hPos fun hBehind => ?_
    have hLast : p.tokens.getLast? = some p.current := by
      rw [List.getLast?_eq_getElem?, ← p.current_eq,
        ← hBehind, Nat.add_sub_cancel]
    exact hKind (p.ended p.current hLast)

/- Move on by a token, but not behind an end. -/
def advance
    (p : Reader) : Reader :=
  { p with
    pos := p.next
    current := p.tokens.get ⟨p.next, p.next_lt⟩
    current_eq := List.getElem?_eq_getElem p.next_lt }

/- Moving on counts nothing. -/
theorem depth_advance
    (p : Reader) :
    p.advance.depth = p.depth :=
  rfl

/- The tokens from the cursor on. -/
def ahead
    (p : Reader) : List Token :=
  p.tokens.drop p.pos

/- Fewer tokens are ahead after one that is no end. -/
theorem length_ahead_advance_lt
    {p : Reader}
    (h : ¬ p.current.kind = .endOfInput) :
    p.advance.ahead.length < p.ahead.length := by
  have hPos := p.pos_lt
  unfold ahead advance next
  simp only [List.length_drop, if_neg h]
  omega

/- Move on by the one semicolon that may end a statement. -/
def eatSemicolon
    (p : Reader) : Reader :=
  if p.current.kind = .semicolon then p.advance else p

/- A semicolon is on no level of its own. -/
theorem depth_eatSemicolon
    (p : Reader) :
    p.eatSemicolon.depth = p.depth := by
  unfold eatSemicolon
  split <;> rfl

------------------------------------------------------------
-- Counters
------------------------------------------------------------

/- Count a level. -/
def enter
    (p : Reader) : Reader :=
  { p with depth := p.depth + 1 }

/- Give up levels. -/
def leave
    (levels : Int)
    (p : Reader) : Reader :=
  { p with depth := p.depth - levels }

/- Count a parenthesis. -/
def openGroup
    (p : Reader) : Reader :=
  { p with groups := p.groups + 1 }

/- Give up a parenthesis. -/
def closeGroup
    (p : Reader) : Reader :=
  { p with groups := p.groups - 1 }

/- Count a block. -/
def openBlock
    (p : Reader) : Reader :=
  { p with blocks := p.blocks + 1 }

/- Give up a block. -/
def closeBlock
    (p : Reader) : Reader :=
  { p with blocks := p.blocks - 1 }

/- The levels that a reader has left. -/
def room
    (limits : Limits)
    (p : Reader) : Nat :=
  (limits.depth - p.depth).toNat

/- The parentheses that a reader may still open. -/
def groupRoom
    (limits : Limits)
    (p : Reader) : Nat :=
  (limits.groups - p.groups).toNat

variable {limits : Limits} {p q : Reader}

/- Only the depth tells how many levels are left. -/
theorem room_eq
    (h : q.depth = p.depth) :
    room limits q = room limits p := by
  unfold room
  rw [h]

/- Moving on counts no level. -/
@[simp]
theorem room_advance :
    room limits p.advance = room limits p :=
  rfl

/- Nor does a parenthesis. -/
@[simp]
theorem room_openGroup :
    room limits p.openGroup = room limits p :=
  rfl

/- A level that is within the limit is one of those left. -/
theorem room_eq_succ
    (h : ¬ limits.depth < p.enter.depth) :
    room limits p = room limits p.enter + 1 := by
  unfold room
  simp only [enter] at *
  omega

/- No level is left exactly if the next one is too deep. -/
theorem room_eq_zero :
    room limits p = 0 ↔ limits.depth < p.enter.depth := by
  unfold room
  simp only [enter]
  omega

/- If there are levels left, the next one is one of them. -/
theorem room_enter
    {n : Nat}
    (h : room limits p = n + 1) :
    ¬ limits.depth < p.enter.depth ∧
      room limits p.enter = n := by
  unfold room at *
  simp only [enter]
  omega

/- Without parentheses left, the next one is too many. -/
theorem groups_openGroup
    (h : groupRoom limits p = 0) :
    limits.groups < p.openGroup.groups := by
  unfold groupRoom at h
  simp only [openGroup]
  omega

/- If there are any left, the next one is one of them. -/
theorem groupRoom_openGroup
    {n : Nat}
    (h : groupRoom limits p = n + 1) :
    ¬ limits.groups < p.openGroup.groups ∧
      groupRoom limits p.openGroup = n := by
  unfold groupRoom at *
  simp only [openGroup]
  omega

------------------------------------------------------------
-- Replies
------------------------------------------------------------

/-
  What is read and the reader after it, which is at a given
  depth; or an error, and the reader where it was raised.
-/
inductive Reply
    (α : Type)
    (depth : Int) where
  | done (x : α) (p : Reader) (kept : p.depth = depth)
  | raised (e : ParseError) (p : Reader)

namespace Reply

/- Read on after what was read. -/
def andThen
    (r : Reply α d)
    (next :
      (x : α) → (p : Reader) → p.depth = d → Reply β d') :
    Reply β d' :=
  match r with
  | done x p kept => next x p kept
  | raised e p => raised e p

/- Give up levels, however reading in them ended. -/
def leaving
    (levels : Int)
    (h : d = d' + levels)
    (r : Reply α d) : Reply α d' :=
  match r with
  | done x p kept =>
      done x (p.leave levels) (by simp only [leave]; omega)
  | raised e p => raised e (p.leave levels)

/- Give up a parenthesis, however reading in it ended. -/
def closingGroup
    (r : Reply α d) : Reply α d :=
  match r with
  | done x p kept => done x p.closeGroup kept
  | raised e p => raised e p.closeGroup

end Reply

open Reply

/- Raise an error on the line of the token at the cursor. -/
def raise
    (cause : ParseError.Cause)
    (p : Reader) : Reply α d :=
  raised ⟨p.current.line, cause⟩ p

/- Read on a level further down, if the limit allows it. -/
def below
    (limits : Limits)
    (p : Reader)
    (kept : p.depth = d)
    (step :
      ¬ limits.depth < p.enter.depth →
        Reply α p.enter.depth) : Reply α d :=
  if h : limits.depth < p.enter.depth then
    raise (.nestingTooDeep limits.depth) p.enter
  else (step h).leaving 1 (by simp only [enter]; omega)

/- Read a token of a given kind. -/
def eat
    (kind : Kind)
    (expected : String)
    (p : Reader)
    (kept : p.depth = d) : Reply Token d :=
  if p.current.kind = kind then
    done p.current p.advance kept
  else if p.current.kind = .endOfInput then
    raise .endOfInput p
  else raise (.wrongToken p.current.lexeme expected) p

------------------------------------------------------------
-- Expressions
------------------------------------------------------------

/- Assign what was read to what is before the sign. -/
def assignTo
    (equals : Token)
    (left value : Expr)
    (p : Reader)
    (kept : p.depth = d) : Reply Expr d :=
  match left with
  | .identifier name => done (.assign name value) p kept
  | _ =>
      raised
        ⟨equals.line,
          .invalidTarget (String.ofList left.chars)⟩ p

mutual

/- Read an expression of a given level. -/
def readExpr
    (limits : Limits)
    (level : Level)
    (p : Reader) : Reply Expr p.depth :=
  match level with
  | .expression =>
      below limits p rfl fun _ =>
        readExpr limits .assignment p.enter
  | .assignment =>
      (readExpr limits (.chain .disjunction) p).andThen
        fun left q hq =>
          if q.current.kind = .equal then
            (below limits q.advance hq fun _ =>
              readExpr limits .assignment
                q.advance.enter).andThen
              fun value r hr =>
                assignTo q.current left value r hr
          else done left q hq
  | .chain c =>
      (readExpr limits c.operand p).andThen
        fun left q hq =>
          readChain limits c 0 left q
            (hq.trans (Int.add_zero _).symm)
  | .unary =>
      if p.current.kind.isPrefixOperator then
        (below limits p.advance rfl fun _ =>
          readExpr limits .unary p.advance.enter).andThen
          fun operand q hq =>
            done (.unary p.current operand) q hq
      else readExpr limits .primary p
  | .primary =>
      if p.current.kind = .endOfInput then
        raise .endOfInput p
      else if p.current.kind.isLiteral then
        done (.literal p.current) p.advance rfl
      else if p.current.kind = .identifier then
        done (.identifier p.current) p.advance rfl
      else if p.current.kind = .leftParen then
        let q := p.advance.openGroup
        if limits.groups < q.groups then
          raised
            ⟨p.current.line, .nestingTooDeep limits.groups⟩
            q
        else
          (readExpr limits .expression q).closingGroup.andThen
            fun inner r hr =>
          (eat .rightParen ")" r hr).andThen
            fun _ s hs => done (.grouping inner) s hs
      else
        raise
          (.unexpectedToken p.current.lexeme "an expression")
          p
termination_by 10 * room limits p + level.rank
decreasing_by
  · have hRoom := room_eq_succ (by assumption)
    simp only [Level.rank]
    omega
  · simp only [Level.rank]
    omega
  · have hRoom := room_eq_succ (by assumption)
    rw [room_advance, room_eq hq] at hRoom
    simp only [Level.rank]
    omega
  · have hRank := Level.rank_operand_lt c
    omega
  · have hRank := Level.rank_chain_pos c
    rw [room_eq hq]
    omega
  · have hRoom := room_eq_succ (by assumption)
    rw [room_advance] at hRoom
    simp only [Level.rank]
    omega
  · simp only [Level.rank]
    omega
  · simp only [room_openGroup, room_advance, Level.rank]
    omega

/-
  Go on with a chain after its first operands.  A level is
  counted for each operator, and all of them are given up at
  the end of the chain.
-/
def readChain
    (limits : Limits)
    (c : Chain)
    {base : Int}
    (levels : Int)
    (left : Expr)
    (p : Reader)
    (kept : p.depth = base + levels) : Reply Expr base :=
  if c.holds p.current.kind then
    let q := p.advance.enter
    if h : limits.depth < q.depth then
      (raise (.nestingTooDeep limits.depth) q).leaving levels
        kept
    else
      match readExpr limits c.operand q with
      | .done right r hr =>
          readChain limits c (levels + 1)
            (c.join left p.current right) r
            (by simp only [hr, q, enter, advance]; omega)
      | .raised e r => raised e (r.leave (levels + 1))
  else (done left p kept).leaving levels rfl
termination_by 10 * room limits p
decreasing_by
  · have hRank := Level.rank_operand_le c
    have hRoom := room_eq_succ h
    rw [room_advance] at hRoom
    omega
  · have hRoom := room_eq_succ h
    have hSame :
        room limits r = room limits p.advance.enter :=
      room_eq hr
    rw [room_advance] at hRoom
    omega

end

------------------------------------------------------------
-- Statements
------------------------------------------------------------

/- Read an expression and the semicolon it may end with. -/
def readTerminated
    (limits : Limits)
    (make : Expr → α)
    (p : Reader)
    (kept : p.depth = d) : Reply α d :=
  (readExpr limits .expression p).andThen fun e q hq =>
    done (make e) q.eatSemicolon
      (q.depth_eatSemicolon.trans (hq.trans kept))

/- Read what follows the word that declares a variable. -/
def readVariable
    (limits : Limits)
    (p : Reader)
    (kept : p.depth = d) : Reply Decl d :=
  if p.current.kind = .identifier then
    let q := p.advance
    have hq : q.depth = d := p.depth_advance.trans kept
    if q.current.kind = .equal then
      readTerminated limits
        (fun e => .declare p.current (some e))
        q.advance (q.depth_advance.trans hq)
    else
      done (.declare p.current none) q.eatSemicolon
        (q.depth_eatSemicolon.trans hq)
  else if p.current.kind = .endOfInput then
    raise .endOfInput p
  else
    raise
      (.unexpectedToken p.current.lexeme "a variable name") p

mutual

/- Read a statement. -/
def readStmt
    (limits : Limits)
    (p : Reader) : Reply Stmt p.depth :=
  below limits p rfl fun _ =>
    let first := p.enter.advance
    if p.current.kind = .printWord then
      readTerminated limits .print first rfl
    else if p.current.kind = .leftBrace then
      (readBlock limits first.openBlock).andThen
        fun body q hq =>
      let q := q.closeBlock
      done (.block body) q.eatSemicolon
        (q.depth_eatSemicolon.trans hq)
    else if p.current.kind = .ifWord then
      (eat .leftParen "(" first rfl).andThen fun _ q hq =>
      (readExpr limits .expression q).andThen
        fun condition r hr =>
      (eat .rightParen ")" r (hr.trans hq)).andThen
        fun _ s hs =>
      (readStmt limits s).andThen fun body t ht =>
      if t.current.kind = .elseWord then
        (readStmt limits t.advance).andThen
          fun other u hu =>
            done (.ifElse condition body other) u
              (hu.trans (ht.trans hs))
      else done (.ifThen condition body) t (ht.trans hs)
    else readTerminated limits .expression p.enter rfl
termination_by (room limits p, p.ahead.length, 0)
decreasing_by
  · have hRoom := room_eq_succ (by assumption)
    have hSame :
        room limits p.enter.advance.openBlock =
          room limits p.enter :=
      room_eq rfl
    exact .left _ _ (by omega)
  · have hRoom := room_eq_succ (by assumption)
    have hSame : room limits s = room limits p.enter :=
      room_eq hs
    exact .left _ _ (by omega)
  · have hRoom := room_eq_succ (by assumption)
    have hSame :
        room limits t.advance = room limits p.enter :=
      room_eq (ht.trans hs)
    exact .left _ _ (by omega)

/- Read a declaration. -/
def readDecl
    (limits : Limits)
    (p : Reader) : Reply Decl p.depth :=
  if p.current.kind = .varWord then
    readVariable limits p.advance rfl
  else
    (readStmt limits p).andThen fun s q hq =>
      done (.statement s) q hq
termination_by (room limits p, p.ahead.length, 1)

/- Read the declarations of a block, and its end. -/
def readBlock
    (limits : Limits)
    (p : Reader) : Reply (List Decl) p.depth :=
  if p.current.kind = .rightBrace then done [] p.advance rfl
  else if p.current.kind = .endOfInput then
    raise .endOfInput p
  else
    (readDecl limits p).andThen fun d q hq =>
      if _h : q.ahead.length < p.ahead.length then
        (readBlock limits q).andThen fun ds r hr =>
          done (d :: ds) r (hr.trans hq)
      else done [d] q hq
termination_by (room limits p, p.ahead.length, 2)
decreasing_by
  · exact .right _ (.right _ (by decide))
  · rw [room_eq hq]
    exact .right _ (.left _ _ _h)

end

------------------------------------------------------------
-- Programs
------------------------------------------------------------

/-
  Skip tokens up to a boundary, while `opened` blocks are to
  be closed; the first token in any case if it has to be.
-/
def skip
    (mustSkip : Bool)
    (opened : Nat)
    (p : Reader) : Reader :=
  if _h : p.current.kind = .endOfInput then p
  else if
      !mustSkip && opened == 0 &&
        p.current.kind.startsStatement then p
  else if p.current.kind = .leftBrace then
    skip false (opened + 1) p.advance
  else if p.current.kind = .rightBrace ∧ 0 < opened then
    if opened - 1 = 0 then p.advance
    else skip false (opened - 1) p.advance
  else if p.current.kind = .semicolon ∧ opened = 0 then
    p.advance
  else skip false opened p.advance
termination_by p.ahead.length
decreasing_by
  · exact length_ahead_advance_lt _h
  · exact length_ahead_advance_lt _h
  · exact length_ahead_advance_lt _h

/-
  After an error in what began at a place, skip tokens up to
  a boundary, and count from nothing again.
-/
def recover
    (start : Nat)
    (p : Reader) : Reader :=
  skip (p.pos == start) p.blocks
    { p with blocks := 0, depth := 0, groups := 0 }

/-
  Read declarations up to the end: a declaration or an error
  for each attempt.
-/
def readAll
    (limits : Limits)
    (p : Reader) : List (Except ParseError Decl) :=
  if p.current.kind = .endOfInput then []
  else
    match readDecl limits p with
    | .done d q _ =>
        .ok d ::
          if _h : q.ahead.length < p.ahead.length then
            readAll limits q
          else []
    | .raised e q =>
        .error e ::
          if _h :
              (q.recover p.pos).ahead.length <
                p.ahead.length then
            readAll limits (q.recover p.pos)
          else []
termination_by p.ahead.length
decreasing_by
  · exact _h
  · exact _h

/- A reader at the first of tokens, in nothing. -/
def start
    (ts : List Token) : Reader where
  tokens := Token.terminated ts
  pos := 0
  current :=
    (Token.terminated ts).head (Token.terminated_ne_nil ts)
  blocks := 0
  depth := 0
  groups := 0
  current_eq := by
    rw [← List.head?_eq_getElem?]
    exact List.head?_eq_some_head _
  ended := Token.kind_of_getLast?_terminated

end Reader

end Lox
