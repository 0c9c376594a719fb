import Lox.Proofs.Reading.Insertion
import Lox.Proofs.Reading.Recovery

/-
  How far an error inside of a block reaches.

  A program is read without errors, and one of its blocks is
  empty.  With other tokens in that block there may be an
  error.  Then reading resumes after the brace that closes
  the outermost block around.  The declarations in front are
  read as before; those behind are, too, if the one with the
  block ends with that brace.  If it goes on, with an `else`
  or a semicolon, that part of it is read as a program, and
  shows errors of its own.

  Key definitions include:
    * `Token.GoesOn`
    * `Decl.Place`

  Key theorems include:
    * `Decl.Reads.goesOn`
    * `Decl.boundary_of_contained`
    * `Decl.programWithin_of_error_in_block`
-/

namespace Lox

variable {set : Setting} {limits : Limits} {depth : Nat}
variable {t opening closing : Token}
variable {inner ts us vs ws rest after : List Token}
variable {m n : Nat}
variable {s : Stmt} {d : Decl} {ds : List Decl}
variable {f : Failure}

------------------------------------------------------------
-- Tokens of Declarations
------------------------------------------------------------

/- What is read as a statement opens and closes its blocks. -/
theorem Stmt.Reads.nests
    (h :
      Stmt.Reads set.limits.groupRoom depth us
        (Token.next rest none) s) :
    Token.Nests 0 us 0 := by
  have hAccounts := Stmt.accounts_parse set depth (us ++ rest)
  rw [Stmt.parse_append_eq_done.mpr h] at hAccounts
  rcases hAccounts.of_done with ⟨vs, hSplit, hvs⟩
  rwa [List.append_cancel_right hSplit]

/- What is read as a declaration does so, too. -/
theorem Decl.Reads.nests
    (h :
      Decl.Reads set.limits.groupRoom depth us
        (Token.next rest none) d) :
    Token.Nests 0 us 0 := by
  have hAccounts := Decl.accounts_parse set depth (us ++ rest)
  rw [Decl.parse_append_eq_done.mpr h] at hAccounts
  rcases hAccounts.of_done with ⟨vs, hSplit, hvs⟩
  rwa [List.append_cancel_right hSplit]

/- So do the tokens of a block. -/
theorem Decl.ReadsAll.nests
    (h :
      Decl.ReadsAll set.limits.groupRoom depth us
        (some .rightBrace) ds)
    (hClosing : closing.kind = .rightBrace) :
    Token.Nests 0 us 0 := by
  have hParse : Decl.parseBlock set depth (us ++ [closing]) =
      .done ds [] :=
    h.parseBlock hClosing
  have hNests :=
    nests_of_parseBlock (accounts_parse set depth)
      (us ++ [closing])
  rcases hNests.1 ds [] hParse with ⟨vs, last, hSplit, -, hvs⟩
  rwa [(List.append_inj' hSplit rfl).1]

/- Tokens without braces have no part that ends with one. -/
theorem Token.not_isLast_of_braceless
    (hTokens :
      ∀ t ∈ ts, ¬ t.kind = .leftBrace ∧
        ¬ t.kind = .rightBrace)
    (hSplit : ts = us ++ vs) :
    ¬ IsLast .rightBrace us := by
  rintro ⟨t, ht, hKind⟩
  rw [hSplit] at hTokens
  exact (hTokens t (List.mem_append_left vs
    (List.mem_of_getLast? ht))).2 hKind

/-
  Tokens without braces are passed over where a part of the
  tokens ends with a brace.
-/
theorem Token.exists_append_of_isLast
    (hTokens :
      ∀ t ∈ ts, ¬ t.kind = .leftBrace ∧
        ¬ t.kind = .rightBrace)
    (hLast : IsLast .rightBrace us)
    (hus : Nests 0 us 0)
    (hSplit : ts ++ rest = us ++ vs) :
    ∃ ws, rest = ws ++ vs ∧ IsLast .rightBrace ws ∧
      Nests 0 ws 0 := by
  rcases List.append_eq_append_iff.mp hSplit with
    ⟨ws, rfl, hRest⟩ | ⟨ws, hts, -⟩
  · have hne : ws ≠ [] := by
      rintro rfl
      exact not_isLast_of_braceless hTokens
        (List.append_nil _).symm (List.append_nil ts ▸ hLast)
    rcases hus.split with ⟨k, hk, hws⟩
    rw [hk.unique (.of_braceless hTokens)] at hws
    exact ⟨ws, hRest, (isLast_append hne).mp hLast, hws⟩
  · exact absurd hLast (not_isLast_of_braceless hTokens hts)

/- The ending of something holds no braces. -/
theorem EndsBefore.braceless
    {more : Kind → Prop}
    {next : Option Kind}
    (h : EndsBefore more us next) :
    ∀ t ∈ us, ¬ t.kind = .leftBrace ∧
      ¬ t.kind = .rightBrace := by
  rcases h.optional with rfl | ⟨t, rfl, ht⟩
  · exact fun t ht => absurd ht List.not_mem_nil
  · rw [List.forall_mem_singleton, ht]
    exact ⟨by simp, by simp⟩

/- An expression with its ending holds no braces. -/
theorem Expr.Derives.braceless_append
    {more : Kind → Prop}
    {next : Option Kind}
    {groups : Nat}
    {level : Level}
    {e : Expr}
    (h : Derives level depth groups ts e)
    (hEnd : EndsBefore more us next) :
    ∀ t ∈ ts ++ us, ¬ t.kind = .leftBrace ∧
      ¬ t.kind = .rightBrace := by
  rw [List.forall_mem_append]
  exact ⟨h.braceless, hEnd.braceless⟩

------------------------------------------------------------
-- Behind a Block
------------------------------------------------------------

/-
  Tokens with which a declaration may go on after a block is
  closed and none is open: a semicolon, or an `else`.
-/
def Token.GoesOn
    (ts : List Token) : Prop :=
  ∀ t ∈ ts.head?, t.kind = .semicolon ∨ t.kind = .elseWord

/- An ending goes on with nothing but a semicolon. -/
theorem EndsBefore.goesOn
    {more : Kind → Prop}
    {next : Option Kind}
    (h : EndsBefore more us next) :
    Token.GoesOn us := by
  rcases h.optional with rfl | ⟨t, rfl, ht⟩
  · rintro t ⟨⟩
  · rintro u ⟨⟩
    exact .inl ht

/-
  The part of a block that closes as many blocks as it opens
  and ends with a brace is all of it, or all but its ending.
-/
theorem Token.goesOn_of_block
    {more : Kind → Prop}
    {next : Option Kind}
    {ending : List Token}
    (hBlock : Token.Encloses opening inner closing)
    (hEnd : EndsBefore more ending next)
    (hLast : IsLast .rightBrace us)
    (hus : Nests 0 us 0)
    (hSplit : opening :: inner ++ closing :: ending = us ++ vs) :
    GoesOn vs := by
  cases us with
  | nil =>
      rcases hLast with ⟨t, ht, -⟩
      cases ht
  | cons u us =>
      rw [List.cons_append, List.cons_append,
        List.cons.injEq] at hSplit
      rcases hSplit with ⟨rfl, hSplit⟩
      have hOpen := hus.of_leftBrace hBlock.hOpening
      rcases hOpen.exists_closing with
        ⟨as, last, bs, rfl, hKind, has, hbs⟩
      rw [List.append_assoc, List.cons_append] at hSplit
      rcases hBlock.hInner.eq_of_closing hBlock.hClosing has
          hKind hSplit with
        ⟨-, rfl⟩
      cases bs with
      | nil => exact hEnd.goesOn
      | cons b bs =>
          -- a brace would stand in the ending
          rw [← List.cons_append, List.append_cons,
            isLast_append (List.cons_ne_nil b bs)] at hLast
          exact absurd hLast
            (not_isLast_of_braceless hEnd.braceless rfl)

/- A condition holds no braces, nor does what is around it. -/
theorem Expr.Derives.braceless_condition
    {groups : Nat}
    {e : Expr}
    {word left right : Token}
    (h : Derives .expression depth groups ts e)
    (hWord : word.kind = .ifWord)
    (hLeft : left.kind = .leftParen)
    (hRight : right.kind = .rightParen) :
    ∀ t ∈ word :: left :: ts ++ [right],
      ¬ t.kind = .leftBrace ∧ ¬ t.kind = .rightBrace := by
  rw [List.forall_mem_append, List.forall_mem_cons,
    List.forall_mem_cons, List.forall_mem_singleton, hWord,
    hLeft, hRight]
  exact ⟨⟨by simp, by simp, h.braceless⟩, by simp⟩

/-
  In front of a second branch, or in it, the rest of a part
  goes on if this holds of either branch.
-/
theorem Token.goesOn_of_branches
    {separator : Token}
    (hElse : separator.kind = .elseWord)
    (hFirst :
      ∀ us vs, ts = us ++ vs → IsLast .rightBrace us →
        Nests 0 us 0 → GoesOn vs)
    (hSecond :
      ∀ us vs, rest = us ++ vs → IsLast .rightBrace us →
        Nests 0 us 0 → GoesOn vs)
    (hts : Nests 0 ts 0)
    (hLast : IsLast .rightBrace us)
    (hus : Nests 0 us 0)
    (hSplit : ts ++ separator :: rest = us ++ vs) :
    GoesOn vs := by
  have hGoesOn : ∀ ts, GoesOn (separator :: ts) := by
    rintro ts t ⟨⟩
    exact .inr hElse
  rcases List.append_eq_append_iff.mp hSplit with
    ⟨ws, rfl, hvs⟩ | ⟨ws, rfl, rfl⟩
  · cases ws with
    | nil =>
        rw [List.nil_append] at hvs
        exact hvs ▸ hGoesOn rest
    | cons w ws =>
        rcases hus.split with ⟨k, hk, hMore⟩
        rw [hk.unique hts] at hMore
        rw [isLast_append (List.cons_ne_nil w ws)] at hLast
        have hSeparator :
            ∀ t ∈ [separator], ¬ t.kind = .leftBrace ∧
              ¬ t.kind = .rightBrace := by
          simp [hElse]
        rcases exists_append_of_isLast hSeparator hLast hMore
            hvs with
          ⟨xs, hxs, hLast, hNests⟩
        exact hSecond xs vs hxs hLast hNests
  · cases ws with
    | nil => exact hGoesOn rest
    | cons w ws =>
        have hw := hFirst us (w :: ws) rfl hLast hus
        rintro t ⟨⟩
        exact hw _ rfl

/-
  Whatever of a statement follows a part that ends with the
  brace of an outermost block goes on.  The induction is on
  the levels; the parts of a conditional are passed over up
  to the branch in which the part ends.
-/
theorem Stmt.Reads.goesOn
    (h :
      Stmt.Reads set.limits.groupRoom depth ts
        (Token.next rest none) s)
    (hSplit : ts = us ++ vs)
    (hLast : IsLast .rightBrace us)
    (hus : Token.Nests 0 us 0) :
    Token.GoesOn vs := by
  induction depth generalizing ts us vs s rest with
  | zero => cases h
  | succ depth ih =>
      cases h with
      | expression inner hEnd =>
          exact absurd hLast (Token.not_isLast_of_braceless
            (inner.braceless_append hEnd) hSplit)
      | print hWord inner hEnd =>
          refine absurd hLast
            (Token.not_isLast_of_braceless ?_ hSplit)
          rw [List.cons_append, List.forall_mem_cons, hWord]
          exact ⟨by simp, inner.braceless_append hEnd⟩
      | block hOpening body hClosing hEnd =>
          exact Token.goesOn_of_block
            ⟨hOpening, body.nests hClosing, hClosing⟩ hEnd
            hLast hus hSplit
      | ifThen hWord hLeft test hRight first hAfter =>
          rw [List.append_cons] at hSplit
          rcases Token.exists_append_of_isLast
              (test.braceless_condition hWord hLeft hRight)
              hLast hus hSplit with
            ⟨ws, hws, hLast, hNests⟩
          exact ih first hws hLast hNests
      | @ifElse _ _ us _ _ _ body _ _ _ right separator hWord
          hLeft test hRight first hElse second =>
          have hFirst :
              Reads set.limits.groupRoom depth us
                (Token.next [separator] none) body := by
            rwa [Token.next_cons, hElse]
          rw [List.append_cons _ right, List.append_assoc]
            at hSplit
          rcases Token.exists_append_of_isLast
              (test.braceless_condition hWord hLeft hRight)
              hLast hus hSplit with
            ⟨ws, hws, hLast, hNests⟩
          exact Token.goesOn_of_branches hElse
            (fun _ _ => ih hFirst) (fun _ _ => ih second)
            hFirst.nests hLast hNests hws

/- So does whatever of a declaration follows such a part. -/
theorem Decl.Reads.goesOn
    (h :
      Decl.Reads set.limits.groupRoom depth ts
        (Token.next rest none) d)
    (hSplit : ts = us ++ vs)
    (hLast : IsLast .rightBrace us)
    (hus : Token.Nests 0 us 0) :
    Token.GoesOn vs := by
  cases h with
  | declare hWord hName hEnd =>
      refine absurd hLast
        (Token.not_isLast_of_braceless ?_ hSplit)
      rw [List.forall_mem_cons, List.forall_mem_cons, hWord,
        hName]
      exact ⟨by simp, by simp, hEnd.braceless⟩
  | declareWith hWord hName hEquals inner hEnd =>
      refine absurd hLast
        (Token.not_isLast_of_braceless ?_ hSplit)
      rw [List.cons_append, List.cons_append,
        List.cons_append, List.forall_mem_cons,
        List.forall_mem_cons, List.forall_mem_cons, hWord,
        hName, hEquals]
      exact ⟨by simp, by simp, by simp,
        inner.braceless_append hEnd⟩
  | statement inner => exact inner.goesOn hSplit hLast hus

/- What goes on with a declaration does not start one. -/
theorem Decl.exists_error_of_goesOn
    (h : Token.GoesOn ts)
    (hne : ts ≠ [])
    (rest : List Token) :
    ∃ e items,
      parseAll set (ts ++ rest) = .error e :: items := by
  cases ts with
  | nil => exact absurd rfl hne
  | cons t ts =>
      rw [List.cons_append]
      cases hParse :
          parse set set.limits.depthRoom (t :: (ts ++ rest))
        with
      | failed f =>
          exact ⟨_, _, parseAll_of_failed hParse⟩
      | done d mid =>
          rcases derives_of_parse hParse with
            ⟨us, hSplit, hus⟩
          rcases hus.eq_cons with ⟨u, us, rfl, hu⟩
          rw [List.cons_append, List.cons.injEq] at hSplit
          rcases hSplit with ⟨rfl, -⟩
          rcases h t rfl with hKind | hKind
          · rw [hKind] at hu
            cases hu
          · rw [hKind] at hu
            cases hu

------------------------------------------------------------
-- Places of Blocks
------------------------------------------------------------

/-
  The place of a block in a program: the declarations before
  and after the one with the block, and the tokens of that
  one up to the end of the outermost block around, and its
  other tokens, if there are any.
-/
structure Decl.Place
    (limits : Limits)
    (front : List Token)
    (opening : Token)
    (back : List Token) where
  before : List Decl
  decl : Decl
  after : List Decl
  first : List Token
  start : List Token
  outer : List Token
  tail : List Token
  rest : List Token
  hFront : front = first ++ start
  hBack : back = outer ++ (tail ++ rest)
  hBefore :
    Decl.ReadsAll limits.groupRoom limits.depthRoom first
      (Token.next start (some opening.kind)) before
  hDecl :
    Decl.Reads limits.groupRoom limits.depthRoom
      (start ++ opening :: (outer ++ tail))
      (Token.next rest none) decl
  hAfter :
    Decl.ReadsAll limits.groupRoom limits.depthRoom rest none
      after
  hLast : IsLast .rightBrace outer
  hNests : Token.Nests 0 (start ++ opening :: outer) 0

namespace Decl.Place

variable {front back : List Token}

/- What follows the outermost block goes on after it. -/
theorem goesOn
    (p : Place limits front opening back) :
    Token.GoesOn p.tail := by
  have hDecl :
      Reads (Setting.mk limits 0).limits.groupRoom
        limits.depthRoom
        (p.start ++ opening :: p.outer ++ p.tail)
        (Token.next p.rest none) p.decl := by
    rw [List.append_assoc]
    exact p.hDecl
  refine hDecl.goesOn rfl ?_ p.hNests
  rcases p.hLast with ⟨t, ht, hKind⟩
  have hne : p.outer ≠ [] := by
    rintro hNil
    rw [hNil] at ht
    cases ht
  rw [List.append_cons, isLast_append hne]
  exact p.hLast

/-
  Behind the outermost block the other declarations are read
  exactly if the one with the block ends there.
-/
theorem parseAll_eq_map_ok_iff
    (p : Place limits front opening back)
    (line : Int) :
    parseAll ⟨limits, line⟩ (p.tail ++ p.rest) =
        p.after.map .ok ↔
      p.tail = [] := by
  constructor
  · intro hAfter
    by_cases hTail : p.tail = []
    · exact hTail
    -- what goes on with the declaration is an error itself
    rcases exists_error_of_goesOn p.goesOn hTail p.rest with
      ⟨e, items, hError⟩
    rw [hError] at hAfter
    cases hDecls : p.after with
    | nil =>
        rw [hDecls] at hAfter
        cases hAfter
    | cons d ds =>
        rw [hDecls] at hAfter
        cases hAfter
  · intro hTail
    rw [hTail, List.nil_append]
    exact parseAll_eq_map_ok.mpr p.hAfter

/- A declaration in front of others is one of those before. -/
def cons
    (p : Place limits vs opening back)
    (h :
      Reads limits.groupRoom limits.depthRoom us
        (Token.next vs (some opening.kind)) d) :
    Place limits (us ++ vs) opening back where
  before := d :: p.before
  decl := p.decl
  after := p.after
  first := us ++ p.first
  start := p.start
  outer := p.outer
  tail := p.tail
  rest := p.rest
  hFront := by
    rw [List.append_assoc, ← p.hFront]
  hBack := p.hBack
  hBefore := by
    rw [p.hFront, Token.next_append] at h
    exact .cons h p.hBefore
  hDecl := p.hDecl
  hAfter := p.hAfter
  hLast := p.hLast
  hNests := p.hNests

end Decl.Place

/-
  Where reading resumes after a failure in a block that is
  open within `m` others.
-/
theorem Decl.boundary_of_contained
    (hBlock : Token.Encloses opening inner closing)
    (hus : Token.Nests 0 us m)
    (hFailed :
      parse set depth
          (us ++ opening :: (inner ++ closing :: rest)) =
        .failed f)
    (hContained :
      (Attempt.failed f : Attempt Decl).Contained inner
        (closing :: rest) after) :
    f.boundary
        (us ++ opening :: (inner ++ closing :: rest)) =
      resume false (m + 1) (closing :: rest) := by
  rcases hContained with ⟨ws, vs, hInner, hRest⟩
  have hAccounts := accounts_parse set depth
    (us ++ opening :: (inner ++ closing :: rest))
  rw [hFailed] at hAccounts
  rcases hAccounts.of_failed with ⟨ts, hSplit, hts⟩
  have hConsumed : us ++ opening :: ws = ts := by
    rw [hRest, hInner] at hSplit
    apply List.append_cancel_right
    rw [← hSplit]
    simp
  have hNests := hBlock.hInner
  rw [hInner] at hNests
  rcases hNests.split with ⟨k, hws, hvs⟩
  have hOpened : f.opened = k + m + 1 := by
    have hOpening :=
      Token.Nests.leftBrace (n := m) hBlock.hOpening
    have hMore := hws.add (m + 1)
    rw [Nat.zero_add] at hMore
    have := (hus.append (hOpening.append hMore)).unique
      (hConsumed ▸ hts)
    omega
  unfold Failure.boundary
  rw [hOpened, hRest, resume_succ_eq]
  have hSkip := resume_append_of_nests (hvs.add m)
    (closing :: rest)
  rwa [Nat.zero_add] at hSkip

namespace Decl

/-
  Let a declaration with an empty block come first.  Either
  it comes first with other tokens in the block, too, or the
  attempt fails, and reading resumes behind the outermost
  block around.
-/
theorem exists_place_of_parse
    {back : List Token}
    (hBlock : Token.Encloses opening inner closing)
    (hParse :
      parse set set.limits.depthRoom
          (us ++ opening :: closing :: back) =
        .done d rest)
    (hRest : rest <:+ back)
    (hMore : parseAll set rest = ds.map .ok)
    (hFailed :
      parse set set.limits.depthRoom
          (us ++ opening :: (inner ++ closing :: back)) =
        .failed f) :
    ∃ p : Place set.limits us opening (closing :: back),
      d :: ds = p.before ++ p.decl :: p.after ∧
        p.before = [] ∧
        f.boundary
            (us ++ opening :: (inner ++ closing :: back)) =
          p.tail ++ p.rest := by
  have hContained := contained_parse hBlock hParse hRest
  rw [hFailed] at hContained
  rcases hRest with ⟨zs, rfl⟩
  have hDecl :
      Reads set.limits.groupRoom set.limits.depthRoom
        (us ++ opening :: closing :: zs)
        (Token.next rest none) d := by
    rw [← parse_append_eq_done]
    simpa using hParse
  rcases hDecl.nests.split with ⟨m, hus, hBack⟩
  rcases (hBack.of_leftBrace hBlock.hOpening).exists_closing
    with ⟨vs, last, tail, hzs, hLast, hvs, -⟩
  have hBoundary :=
    boundary_of_contained hBlock hus hFailed hContained
  have hAll :
      closing :: (zs ++ rest) =
        vs ++ last :: (tail ++ rest) := by
    rw [← List.cons_append, hzs]
    simp
  have hResume :
      resume false (m + 1) (closing :: (zs ++ rest)) =
        tail ++ rest := by
    rw [hAll, resume_append_closing hvs hLast]
  refine ⟨{
    before := []
    decl := d
    after := ds
    first := []
    start := us
    outer := vs ++ [last]
    tail := tail
    rest := rest
    hFront := rfl
    hBack := by rw [hAll]; simp
    hBefore := .nil
    hDecl := by
      have hOuter : vs ++ [last] ++ tail = closing :: zs := by
        rw [hzs]
        simp
      rw [hOuter]
      exact hDecl
    hAfter := parseAll_eq_map_ok.mp hMore
    hLast := ?_
    hNests := ?_ }, rfl, rfl, hBoundary.trans hResume⟩
  · exact ⟨last, List.getLast?_concat, hLast⟩
  · have hOuter := (hvs.add 1).append (.rightBrace hLast)
    have hInside :=
      (Token.Nests.leftBrace hBlock.hOpening).append hOuter
    exact hus.append hInside

/-
  With other tokens in an empty block, the declarations in
  front are read as before.  The induction is on the
  declarations, up to the one that holds the block.
-/
theorem exists_place
    {front back : List Token}
    (hBlock : Token.Encloses opening inner closing)
    (h :
      parseAll set (front ++ opening :: closing :: back) =
        ds.map .ok)
    (hErrors :
      errorsOf
          (parseAll set
            (front ++
              opening :: (inner ++ closing :: back))) ≠ []) :
    ∃ p : Place set.limits front opening (closing :: back),
      ds = p.before ++ p.decl :: p.after ∧
        ∃ e,
          parseAll set
              (front ++
                opening :: (inner ++ closing :: back)) =
            p.before.map .ok ++
              .error e :: parseAll set (p.tail ++ p.rest) := by
  induction ds generalizing front with
  | nil =>
      have hReads := parseAll_eq_map_ok.mp h
      generalize hts :
        front ++ opening :: closing :: back = ts at hReads
      cases hReads
      simp at hts
  | cons d ds ih =>
      generalize hts :
        front ++ opening :: closing :: back = ts at h
      cases ts with
      | nil => simp at hts
      | cons t ts =>
      cases hParse :
          parse set set.limits.depthRoom (t :: ts) with
      | failed f =>
          rw [parseAll_of_failed hParse] at h
          cases h
      | done e mid =>
          rw [parseAll_of_done hParse, List.map_cons,
            List.cons.injEq] at h
          rcases h with ⟨hHead, hMore⟩
          cases hHead
          have hAccounts :=
            accounts_parse set set.limits.depthRoom (t :: ts)
          rw [hParse, ← hts] at hAccounts
          rw [← hts] at hParse
          rcases hAccounts.rest_cases hBlock.hOpening with
            ⟨us, vs, rfl, rfl⟩ | hBeyond
          · rw [List.append_assoc] at hParse hErrors ⊢
            have hSame := parse_append_of_next hParse
              (Token.next_append_cons vs (closing :: back)
                (inner ++ closing :: back) opening)
            rw [parseAll_of_done hSame] at hErrors ⊢
            rcases ih hMore hErrors with
              ⟨p, rfl, e, hItems⟩
            have hReads := parse_append_eq_done.mp hParse
            rw [Token.next_append, Token.next_cons] at hReads
            refine ⟨p.cons hReads, rfl, e, ?_⟩
            rw [hItems]
            rfl
          · have hContained :=
              contained_parse hBlock hParse hBeyond
            cases hOther :
                parse set set.limits.depthRoom
                  (front ++
                    opening :: (inner ++ closing :: back)) with
            | done d' rest =>
                rw [hOther] at hContained
                cases hContained
                rw [parseAll_of_done hOther, hMore] at hErrors
                exact absurd (errorsOf_map_ok (d' :: ds))
                  hErrors
            | failed f =>
                have hItems :
                    parseAll set
                        (front ++ opening ::
                          (inner ++ closing :: back)) =
                      .error f.error ::
                        parseAll set (f.boundary (front ++
                          opening ::
                            (inner ++ closing :: back))) := by
                  cases front with
                  | nil => exact parseAll_of_failed hOther
                  | cons u us => exact parseAll_of_failed hOther
                rcases exists_place_of_parse hBlock hParse
                    hBeyond hMore hOther with
                  ⟨p, hds, hBefore, hBoundary⟩
                refine ⟨p, hds, f.error, ?_⟩
                rw [hItems, hBefore, hBoundary]
                rfl

------------------------------------------------------------
-- Programs
------------------------------------------------------------

/-
  Without a token that ends the input, the last token tells
  where it ends.
-/
theorem endLine_append_cons
    (h : ∀ u ∈ us ++ t :: rest, ¬ u.kind = .endOfInput) :
    endLine (us ++ t :: rest) = endLine (t :: rest) := by
  have hNone :
      ∀ ts : List Token,
        (∀ u ∈ ts, ¬ u.kind = .endOfInput) →
          ts.find? (fun t => t.kind == .endOfInput) =
            none := by
    intro ts hts
    rw [List.find?_eq_none]
    intro u hu
    simpa using hts u hu
  unfold endLine
  rw [hNone _ h, hNone _ fun u hu =>
    h u (List.mem_append_right us hu)]
  rw [List.getLast?_append,
    List.getLast?_eq_some_getLast (List.cons_ne_nil t rest),
    Option.some_or]

/- Such a program is read on the line where its end is. -/
theorem programWithin_append_cons
    (h : ∀ u ∈ us ++ t :: rest, ¬ u.kind = .endOfInput) :
    programWithin limits (us ++ t :: rest) =
      parseAll ⟨limits, endLine (t :: rest)⟩
        (us ++ t :: rest) := by
  unfold programWithin
  rw [body_eq_self h, endLine_append_cons h]

/- So is a final part of it. -/
theorem parseAll_eq_programWithin
    (h : ∀ u ∈ ts, ¬ u.kind = .endOfInput)
    (hSuffix : us <:+ ts) :
    parseAll ⟨limits, endLine ts⟩ us =
      programWithin limits us := by
  have hEnding : ending ts = [] := by
    have hAll := body_append_ending ts
    rw [body_eq_self h] at hAll
    exact List.append_cancel_left
      (hAll.trans (List.append_nil ts).symm)
  rw [← body_eq_self h] at hSuffix
  rw [parseAll_eq_programWithin_of_suffix hSuffix, hEnding,
    List.append_nil]

/-
  Let a program be read without errors, and one of its blocks
  be empty.  If there is an error with other tokens in the
  block, whose braces match each other, then reading resumes
  behind the outermost block around.  The error is the only
  one and leaves the other declarations as they are exactly
  if the declaration with the block ends there.
-/
theorem programWithin_of_error_in_block
    {front back : List Token}
    (hBlock : Token.Encloses opening inner closing)
    (hTokens :
      ∀ t ∈ front ++ inner ++ back, ¬ t.kind = .endOfInput)
    (h :
      programWithin limits
          (front ++ opening :: closing :: back) =
        ds.map .ok)
    (hErrors :
      errorsOf
          (programWithin limits
            (front ++
              opening :: (inner ++ closing :: back))) ≠ []) :
    ∃ p : Place limits front opening (closing :: back),
      ds = p.before ++ p.decl :: p.after ∧
        ∃ e,
          programWithin limits
              (front ++
                opening :: (inner ++ closing :: back)) =
            p.before.map .ok ++
              .error e ::
                programWithin limits (p.tail ++ p.rest) ∧
          (programWithin limits
                (front ++
                  opening :: (inner ++ closing :: back)) =
              p.before.map .ok ++
                .error e :: p.after.map .ok ↔
            p.tail = []) := by
  have hOpening : ¬ opening.kind = .endOfInput := by
    simp [hBlock.hOpening]
  have hClosing : ¬ closing.kind = .endOfInput := by
    simp [hBlock.hClosing]
  simp only [List.forall_mem_append] at hTokens
  rcases hTokens with ⟨⟨hFront, hInner⟩, hBack⟩
  have hEmpty :
      ∀ u ∈ front ++ [opening] ++ closing :: back,
        ¬ u.kind = .endOfInput := by
    simp only [List.forall_mem_append, List.forall_mem_cons]
    exact ⟨⟨hFront, hOpening, nofun⟩, hClosing, hBack⟩
  have hFilled :
      ∀ u ∈ front ++ opening :: inner ++ closing :: back,
        ¬ u.kind = .endOfInput := by
    simp only [List.forall_mem_append, List.forall_mem_cons]
    exact ⟨⟨hFront, hOpening, hInner⟩, hClosing, hBack⟩
  have hEmptyRead :
      programWithin limits
          (front ++ opening :: closing :: back) =
        parseAll ⟨limits, endLine (closing :: back)⟩
          (front ++ opening :: closing :: back) := by
    rw [List.append_cons]
    exact programWithin_append_cons hEmpty
  have hFilledRead :
      programWithin limits
          (front ++ opening :: (inner ++ closing :: back)) =
        parseAll ⟨limits, endLine (closing :: back)⟩
          (front ++
            opening :: (inner ++ closing :: back)) := by
    rw [← List.cons_append, ← List.append_assoc]
    exact programWithin_append_cons hFilled
  rw [hEmptyRead] at h
  rw [hFilledRead] at hErrors ⊢
  rcases exists_place hBlock h hErrors with
    ⟨p, hds, e, hItems⟩
  have hLast :
      parseAll ⟨limits, endLine (closing :: back)⟩
          (p.tail ++ p.rest) =
        programWithin limits (p.tail ++ p.rest) := by
    refine parseAll_eq_programWithin ?_ ?_
    · rw [List.forall_mem_cons]
      exact ⟨hClosing, hBack⟩
    · exact ⟨p.outer, p.hBack.symm⟩
  refine ⟨p, hds, e, hLast ▸ hItems, ?_⟩
  rw [hItems, List.append_cancel_left_eq, List.cons.injEq,
    and_iff_right rfl]
  exact p.parseAll_eq_map_ok_iff _

/- The opening brace of a block. -/
def blockStart : Token :=
  .plain .leftBrace "\x7b"

/- The closing brace of a block. -/
def blockEnd : Token :=
  .plain .rightBrace "\x7d"

/- A token that no declaration starts with. -/
def misplaced : Token :=
  .plain .rightParen ")"

/- What is misplaced opens and closes no blocks. -/
theorem encloses_misplaced :
    Token.Encloses blockStart [misplaced] blockEnd where
  hOpening := rfl
  hInner := .other (by decide) (by decide)
  hClosing := rfl

/- A branch that holds a block, as the tokens in front. -/
def branchFront : List Token :=
  [.plain .ifWord "if", .plain .leftParen "(",
    .plain .nilWord "nil", .plain .rightParen ")"]

/- The other branch, as the tokens behind. -/
def branchBack : List Token :=
  [.plain .elseWord "else", .plain .printWord "print",
    .plain .nilWord "nil"]

/- The statement that both of them form with the block. -/
def branches : Decl :=
  .statement (.ifElse (.literal (.plain .nilWord "nil"))
    (.block [])
    (.print (.literal (.plain .nilWord "nil"))))

/-
  If a branch breaks off, its `else` is an error of its own,
  and the other branch becomes a statement.
-/
theorem programWithin_of_error_in_block_branches :
    Token.Encloses blockStart [misplaced] blockEnd ∧
      programWithin .standard
          (branchFront ++ blockStart :: blockEnd ::
            branchBack) =
        [.ok branches] ∧
      errorsOf
          (programWithin .standard
            (branchFront ++ blockStart ::
              ([misplaced] ++ blockEnd :: branchBack))) ≠
        [] ∧
      ∃ p : Place .standard branchFront blockStart
          (blockEnd :: branchBack),
        [branches] = p.before ++ p.decl :: p.after ∧
          ∃ e,
            programWithin .standard
                (branchFront ++ blockStart ::
                  ([misplaced] ++ blockEnd :: branchBack)) =
              p.before.map .ok ++
                .error e ::
                  programWithin .standard
                    (p.tail ++ p.rest) ∧
            (programWithin .standard
                  (branchFront ++ blockStart ::
                    ([misplaced] ++
                      blockEnd :: branchBack)) =
                p.before.map .ok ++
                  .error e :: p.after.map .ok ↔
              p.tail = []) := by
  have hEmpty :
      programWithin .standard
          (branchFront ++ blockStart :: blockEnd ::
            branchBack) =
        [branches].map .ok := by
    cbv
  have hErrors :
      errorsOf
          (programWithin .standard
            (branchFront ++ blockStart ::
              ([misplaced] ++ blockEnd :: branchBack))) ≠
        [] := by
    cbv
    exact List.cons_ne_nil _ _
  refine ⟨encloses_misplaced, hEmpty, hErrors, ?_⟩
  exact programWithin_of_error_in_block encloses_misplaced
    (by decide) hEmpty hErrors

/-
  After a block that breaks off, the semicolon that ends it
  is an error of its own.
-/
theorem programWithin_error_semicolon :
    programWithin .standard
          [blockStart, blockEnd, .plain .semicolon ";"] =
        [.ok (.statement (.block []))] ∧
      programWithin .standard
          [blockStart, misplaced, blockEnd,
            .plain .semicolon ";"] =
        [.error ⟨1, .unexpectedToken ")" "an expression"⟩,
          .error ⟨1, .unexpectedToken ";" "an expression"⟩] ∧
      ∀ e,
        programWithin .standard
            [blockStart, misplaced, blockEnd,
              .plain .semicolon ";"] ≠
          [.error e] := by
  have hFilled :
      programWithin .standard
          [blockStart, misplaced, blockEnd,
            .plain .semicolon ";"] =
        [.error ⟨1, .unexpectedToken ")" "an expression"⟩,
          .error
            ⟨1, .unexpectedToken ";" "an expression"⟩] := by
    cbv
  refine ⟨by cbv, hFilled, fun e he => ?_⟩
  rw [hFilled] at he
  cases he

end Decl

end Lox
