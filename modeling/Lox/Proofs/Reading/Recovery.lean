import Lox.Proofs.Reading.Braces

/-
  Where reading resumes after a failed attempt.

  If blocks are open where the attempt fails, reading resumes
  after the brace that closes the outermost of them.  If none
  is open, it resumes at the first boundary outside of the
  blocks that are opened on the way.  Nothing else is carried
  over from one attempt to the next: the rest of a program is
  read as a program of its own.

  Key definitions include:
    * `Token.stillOpen`
    * `Token.AtBoundary`
    * `Token.Resumes`
    * `Decl.Attempted`

  Key theorems include:
    * `Token.resumes_resume`
    * `Decl.Attempted.parseAll_eq`
    * `Decl.programWithin_of_attempted`
-/

namespace Lox

variable {set : Setting} {limits : Limits} {depth : Nat}
variable {stuck : Bool}
variable {t : Token} {ts us vs rest next : List Token}
variable {m n : Nat}

------------------------------------------------------------
-- Definitions
------------------------------------------------------------

namespace Token

/-
  How many blocks are open after a token, and `n` before.  A
  brace that closes nothing is passed over.
-/
def openAfter
    (n : Nat)
    (t : Token) : Nat :=
  match t.kind with
  | .leftBrace => n + 1
  | .rightBrace => n - 1
  | _ => n

/- How many blocks are open after tokens, and `n` before. -/
def stillOpen
    (n : Nat)
    (ts : List Token) : Nat :=
  ts.foldl openAfter n

/-
  Whether a token ends what was skipped: a semicolon outside
  of blocks, or a brace that closes the only open block.
-/
def IsEnding
    (n : Nat)
    (t : Token) : Prop :=
  t.kind = .semicolon ∧ n = 0 ∨ t.kind = .rightBrace ∧ n = 1

/-
  Whether a boundary lies between tokens that were skipped,
  `n` blocks being open before them, and the next ones: no
  block is open and a statement starts, or what was skipped
  has come to an end.
-/
def AtBoundary
    (n : Nat)
    (skipped next : List Token) : Prop :=
  (stillOpen n skipped = 0 ∧
    ∃ t ∈ next.head?, t.kind.startsStatement = true) ∨
  ∃ us t, skipped = us ++ [t] ∧ t.IsEnding (stillOpen n us)

/-
  Whether reading resumes in front of `next` after a failure
  in front of `rest`.  With blocks open, this is after the
  brace that closes the outermost one, or at the end if there
  is no such brace.  Otherwise it is at the first boundary,
  or at the end; an attempt that is stuck skips a token.
-/
def Resumes
    (stuck : Bool) :
    (opened : Nat) → (rest next : List Token) → Prop
  | 0, rest, next =>
      ∃ skipped,
        rest = skipped ++ next ∧
          (stuck = true → skipped ≠ []) ∧
          (next = [] ∨ AtBoundary 0 skipped next) ∧
          ∀ us vs, skipped = us ++ vs → vs ≠ [] →
            (stuck = true → us ≠ []) →
              ¬ AtBoundary 0 us (vs ++ next)
  | opened + 1, rest, next =>
      (∃ inner closing,
        rest = inner ++ closing :: next ∧
          closing.kind = .rightBrace ∧
          Nests opened inner 0) ∨
      (next = [] ∧
        ∀ inner closing after,
          rest = inner ++ closing :: after →
            closing.kind = .rightBrace →
              ¬ Nests opened inner 0)

end Token

/-
  Tokens from which attempts were made, one after the other:
  what they were read as so far, and the tokens at which the
  next attempt starts.
-/
inductive Decl.Attempted
    (set : Setting)
    (ts : List Token) :
    List (Except ParseError Decl) → List Token → Prop where
  | start :
      Attempted set ts [] ts
  | done
      {items : List (Except ParseError Decl)}
      {us rest : List Token} {d : Decl}
      (before : Attempted set ts items us)
      (hStart : us ≠ [])
      (hParse :
        Decl.parse set set.limits.depthRoom us =
          .done d rest) :
      Attempted set ts (items ++ [.ok d]) rest
  | failed
      {items : List (Except ParseError Decl)}
      {us : List Token} {f : Failure}
      (before : Attempted set ts items us)
      (hStart : us ≠ [])
      (hParse :
        Decl.parse set set.limits.depthRoom us =
          .failed f) :
      Attempted set ts (items ++ [.error f.error])
        (f.boundary us)

/- A token on the first line, without a literal. -/
def Token.plain
    (k : Kind)
    (text : String) : Token :=
  ⟨k, text, .absent, 1⟩

/- The token that ends the input, and all after it. -/
def Decl.ending
    (ts : List Token) : List Token :=
  ts.dropWhile fun t => t.kind != .endOfInput

------------------------------------------------------------
-- Steps of Skipping
------------------------------------------------------------

/- What ends the skipped tokens does not start a statement. -/
theorem Token.IsEnding.startsStatement_eq_false
    (h : t.IsEnding n) :
    t.kind.startsStatement = false := by
  rcases h with ⟨hKind, -⟩ | ⟨hKind, -⟩
  · rw [hKind]
    rfl
  · rw [hKind]
    rfl

/- The start of a statement is not skipped. -/
theorem resume_of_startsStatement
    (h : t.kind.startsStatement = true) :
    resume false 0 (t :: ts) = t :: ts := by
  rw [resume.eq_def]
  simp [h]

/- Skipping stops behind what ends the skipped tokens. -/
theorem resume_of_isEnding
    (h : t.IsEnding n) :
    resume stuck n (t :: ts) = ts := by
  have hGo :
      ¬ (!stuck && n == 0 && t.kind.startsStatement) =
        true := by
    rw [h.startsStatement_eq_false, Bool.and_false]
    exact Bool.false_ne_true
  rw [resume.eq_def]
  dsimp only
  rw [if_neg hGo]
  rcases h with ⟨hKind, rfl⟩ | ⟨hKind, rfl⟩
  · rw [hKind]
  · rw [hKind]

/- Other tokens are skipped. -/
theorem resume_of_not_isEnding
    (hStart :
      stuck = false → n = 0 →
        t.kind.startsStatement = false)
    (hEnding : ¬ t.IsEnding n) :
    resume stuck n (t :: ts) =
      resume false (t.openAfter n) ts := by
  have hGo :
      (!stuck && n == 0 && t.kind.startsStatement) =
        false := by
    cases stuck with
    | true => rfl
    | false =>
        by_cases hn : n = 0
        · rw [hStart rfl hn, Bool.and_false]
        · simp [hn]
  rw [resume.eq_def]
  dsimp only
  rw [hGo, if_neg Bool.false_ne_true]
  unfold Token.openAfter
  split
  · rename_i hKind
    rw [hKind]
  · rename_i hKind
    rw [hKind]
    split
    · rfl
    · exact absurd (.inr ⟨hKind, rfl⟩) hEnding
    · rfl
  · rename_i hKind
    rw [hKind]
    split
    · exact absurd (.inl ⟨hKind, rfl⟩) hEnding
    · rfl
  · rename_i hOpening hClosing _
    split
    · rename_i hKind
      exact absurd hKind hOpening
    · rename_i hKind
      exact absurd hKind hClosing
    · rfl

/- With blocks open, the start of a statement is skipped. -/
theorem resume_succ_of_not_isEnding
    (h : ¬ t.IsEnding (n + 1)) :
    resume stuck (n + 1) (t :: ts) =
      resume false (t.openAfter (n + 1)) ts :=
  resume_of_not_isEnding (fun _ hn => by cases hn) h

/- With blocks open, it does not matter to be stuck. -/
theorem resume_succ_eq
    (stuck : Bool)
    (n : Nat)
    (ts : List Token) :
    resume stuck (n + 1) ts = resume false (n + 1) ts := by
  cases ts with
  | nil => rfl
  | cons t ts =>
      by_cases h : t.IsEnding (n + 1)
      · rw [resume_of_isEnding h, resume_of_isEnding h]
      · rw [resume_succ_of_not_isEnding h,
          resume_succ_of_not_isEnding h]

------------------------------------------------------------
-- Open Blocks
------------------------------------------------------------

/- Tokens that leave a block open are skipped. -/
theorem resume_append_of_nests
    (h : Token.Nests m us n)
    (vs : List Token) :
    resume false (m + 1) (us ++ vs) =
      resume false (n + 1) vs := by
  induction us generalizing m with
  | nil => rw [h.unique .nil, List.nil_append]
  | cons t us ih =>
      have hEnding : ¬ t.IsEnding (m + 1) := by
        rintro (⟨-, hm⟩ | ⟨hClosing, hm⟩)
        · cases hm
        · rcases h.of_rightBrace hClosing with ⟨k, hk, -⟩
          omega
      rw [List.cons_append,
        resume_succ_of_not_isEnding hEnding]
      unfold Token.openAfter
      split
      · rename_i hOpening
        exact ih (h.of_leftBrace hOpening)
      · rename_i hClosing
        rcases h.of_rightBrace hClosing with ⟨k, rfl, hus⟩
        exact ih hus
      · rename_i hOpening hClosing
        exact ih (h.of_other hOpening hClosing)

/- The brace that closes the outermost block is the last. -/
theorem resume_append_closing
    {closing : Token}
    (h : Token.Nests n us 0)
    (hClosing : closing.kind = .rightBrace)
    (vs : List Token) :
    resume stuck (n + 1) (us ++ closing :: vs) = vs := by
  rw [resume_succ_eq, resume_append_of_nests h,
    resume_of_isEnding (.inr ⟨hClosing, rfl⟩)]

/- Either some brace closes the outermost block, or none. -/
theorem exists_closing_or_resume_eq_nil
    (n : Nat)
    (ts : List Token) :
    (∃ inner closing after,
      ts = inner ++ closing :: after ∧
        closing.kind = .rightBrace ∧
        Token.Nests n inner 0) ∨
    resume false (n + 1) ts = [] := by
  induction ts generalizing n with
  | nil => exact .inr rfl
  | cons t ts ih =>
      by_cases hEnding : t.IsEnding (n + 1)
      · rcases hEnding with ⟨-, hn⟩ | ⟨hClosing, hn⟩
        · cases hn
        · cases hn
          exact .inl ⟨[], t, ts, rfl, hClosing, .nil⟩
      rw [resume_succ_of_not_isEnding hEnding]
      have hStep :
          ∃ k, t.openAfter (n + 1) = k + 1 ∧
            Token.Nests n [t] k := by
        unfold Token.openAfter
        split
        · rename_i hOpening
          exact ⟨n + 1, rfl, .leftBrace hOpening⟩
        · rename_i hClosing
          cases n with
          | zero => exact absurd (.inr ⟨hClosing, rfl⟩) hEnding
          | succ n => exact ⟨n, rfl, .rightBrace hClosing⟩
        · rename_i hOpening hClosing
          exact ⟨n, rfl, .other hOpening hClosing⟩
      rcases hStep with ⟨k, hk, ht⟩
      rw [hk]
      rcases ih k with
        ⟨inner, closing, after, rfl, hClosing, hInner⟩ | hNone
      · exact .inl ⟨t :: inner, closing, after, rfl, hClosing,
          ht.append hInner⟩
      · exact .inr hNone

------------------------------------------------------------
-- Boundaries
------------------------------------------------------------

namespace Token

/- No tokens end anything. -/
theorem atBoundary_nil :
    AtBoundary n [] next ↔
      n = 0 ∧
        ∃ t ∈ next.head?, t.kind.startsStatement = true := by
  unfold AtBoundary
  constructor
  · rintro (h | ⟨us, t, h, -⟩)
    · exact h
    · simp at h
  · exact .inl

/- A token that ends nothing may be passed over. -/
theorem atBoundary_cons
    (h : ¬ t.IsEnding n) :
    AtBoundary n (t :: us) next ↔
      AtBoundary (t.openAfter n) us next := by
  unfold AtBoundary
  constructor
  · rintro (hStart | ⟨vs, u, hus, hEnding⟩)
    · exact .inl hStart
    · cases vs with
      | nil =>
          cases hus
          exact absurd hEnding h
      | cons v vs =>
          cases hus
          exact .inr ⟨vs, u, rfl, hEnding⟩
  · rintro (hStart | ⟨vs, u, rfl, hEnding⟩)
    · exact .inl hStart
    · exact .inr ⟨t :: vs, u, rfl, hEnding⟩

/-
  Skipping stops at the first boundary, or at the end.  The
  induction is on the tokens, for any number of open blocks.
-/
theorem exists_skipped
    (stuck : Bool)
    (n : Nat)
    (ts : List Token) :
    ∃ skipped,
      ts = skipped ++ resume stuck n ts ∧
        (stuck = true → ts ≠ [] → skipped ≠ []) ∧
        (resume stuck n ts = [] ∨
          AtBoundary n skipped (resume stuck n ts)) ∧
        ∀ us vs, skipped = us ++ vs → vs ≠ [] →
          (stuck = true → us ≠ []) →
            ¬ AtBoundary n us (vs ++ resume stuck n ts) := by
  induction ts generalizing stuck n with
  | nil =>
      refine ⟨[], rfl, fun _ h => h, .inl rfl, ?_⟩
      intro us vs hSplit hvs
      exact absurd (List.append_eq_nil_iff.mp hSplit.symm).2 hvs
  | cons t ts ih =>
      by_cases hStart :
          stuck = false ∧ n = 0 ∧
            t.kind.startsStatement = true
      · rcases hStart with ⟨rfl, rfl, ht⟩
        rw [resume_of_startsStatement ht]
        refine ⟨[], rfl, nofun, .inr ?_, ?_⟩
        · exact atBoundary_nil.mpr ⟨rfl, t, rfl, ht⟩
        · intro us vs hSplit hvs
          exact absurd
            (List.append_eq_nil_iff.mp hSplit.symm).2 hvs
      -- the first boundary is not in front of the token
      have hFirst :
          ∀ us, (stuck = true → ([] : List Token) ≠ []) →
            ¬ AtBoundary n [] (t :: us) := by
        intro us hStuck hBoundary
        rcases atBoundary_nil.mp hBoundary with
          ⟨hn, u, hu, hStarts⟩
        cases hu
        apply hStart
        refine ⟨?_, hn, hStarts⟩
        cases stuck with
        | false => rfl
        | true => exact absurd rfl (hStuck rfl)
      by_cases hEnding : t.IsEnding n
      · rw [resume_of_isEnding hEnding]
        refine ⟨[t], rfl, fun _ _ => List.cons_ne_nil t [],
          .inr (.inr ⟨[], t, rfl, hEnding⟩), ?_⟩
        intro us vs hSplit hvs hStuck
        cases us with
        | nil =>
            cases hSplit
            exact hFirst _ hStuck
        | cons u us =>
            rw [List.cons_append, List.cons.injEq] at hSplit
            exact absurd
              (List.append_eq_nil_iff.mp hSplit.2.symm).2 hvs
      · have hGo :
            stuck = false → n = 0 →
              t.kind.startsStatement = false := by
          intro hStuck hn
          cases hStarts : t.kind.startsStatement with
          | false => rfl
          | true => exact absurd ⟨hStuck, hn, hStarts⟩ hStart
        rw [resume_of_not_isEnding hGo hEnding]
        rcases ih false (t.openAfter n) with
          ⟨skipped, hts, -, hEnd, hNone⟩
        refine ⟨t :: skipped, ?_,
          fun _ _ => List.cons_ne_nil t skipped, ?_, ?_⟩
        · rw [List.cons_append, ← hts]
        · rwa [atBoundary_cons hEnding]
        · intro us vs hSplit hvs hStuck
          cases us with
          | nil =>
              cases hSplit
              exact hFirst _ hStuck
          | cons u us =>
              cases hSplit
              rw [atBoundary_cons hEnding]
              exact hNone us vs rfl hvs nofun

/- Skipping ends where reading is to resume. -/
theorem resumes_resume
    (h : stuck = true → ts ≠ [])
    (n : Nat) :
    Resumes stuck n ts (resume stuck n ts) := by
  cases n with
  | zero =>
      rcases exists_skipped stuck 0 ts with
        ⟨skipped, hts, hStuck, hEnd, hNone⟩
      exact ⟨skipped, hts, fun hs => hStuck hs (h hs), hEnd,
        hNone⟩
  | succ n =>
      by_cases hClosed :
          ∃ inner closing after,
            ts = inner ++ closing :: after ∧
              closing.kind = .rightBrace ∧ Nests n inner 0
      · rcases hClosed with
          ⟨inner, closing, after, rfl, hClosing, hInner⟩
        rw [resume_append_closing hInner hClosing]
        exact .inl ⟨inner, closing, rfl, hClosing, hInner⟩
      · rw [resume_succ_eq]
        have hNone :=
          (exists_closing_or_resume_eq_nil n ts).resolve_left
            hClosed
        refine .inr ⟨hNone, ?_⟩
        intro inner closing after hts hClosing hInner
        exact hClosed
          ⟨inner, closing, after, hts, hClosing, hInner⟩

end Token

------------------------------------------------------------
-- Attempts
------------------------------------------------------------

namespace Decl

/- A program is what was attempted, and what is left. -/
theorem Attempted.parseAll_eq
    {items : List (Except ParseError Decl)}
    (h : Attempted set ts items us) :
    parseAll set ts = items ++ parseAll set us := by
  induction h with
  | start => rfl
  | @done items us rest d before hStart hParse ih =>
      cases us with
      | nil => exact absurd rfl hStart
      | cons t us =>
          rw [ih, parseAll_of_done hParse,
            List.append_assoc]
          rfl
  | @failed items us f before hStart hParse ih =>
      cases us with
      | nil => exact absurd rfl hStart
      | cons t us =>
          rw [ih, parseAll_of_failed hParse,
            List.append_assoc]
          rfl

/- Attempts leave a final part of the tokens. -/
theorem Attempted.suffix
    {items : List (Except ParseError Decl)}
    (h : Attempted set ts items us) :
    us <:+ ts := by
  induction h with
  | start => exact List.suffix_rfl
  | @done items us rest d before hStart hParse ih =>
      have hRest := rest_parse_suffix set
        set.limits.depthRoom us
      rw [hParse] at hRest
      exact hRest.trans ih
  | @failed items us f before hStart hParse ih =>
      have hRest := rest_parse_suffix set
        set.limits.depthRoom us
      rw [hParse] at hRest
      exact ((resume_suffix _ _ f.rest).trans hRest).trans ih

/- Without a token that ends the input, all tokens count. -/
theorem body_eq_self
    (h : ∀ t ∈ ts, ¬ t.kind = .endOfInput) :
    body ts = ts := by
  have hTake :
      ∀ t ∈ ts, (t.kind != .endOfInput) = true := by
    intro t ht
    simpa using h t ht
  unfold body
  rw [← List.append_nil ts, List.takeWhile_append_of_pos hTake,
    List.takeWhile_nil]

/- Tokens are those before the end, and the others. -/
theorem body_append_ending
    (ts : List Token) :
    body ts ++ ending ts = ts :=
  List.takeWhile_append_dropWhile

/- A final part of what is before the end does not end. -/
theorem ne_endOfInput_of_suffix
    (h : us <:+ body ts) :
    ∀ t ∈ us, (t.kind != .endOfInput) = true :=
  fun t ht =>
    List.all_eq_true.mp List.all_takeWhile t (h.subset ht)

/- What is not before the end starts with the end. -/
theorem kind_of_ending_eq_cons
    {e : Token} {more : List Token}
    (h : ending ts = e :: more) :
    e.kind = .endOfInput := by
  have hHead := List.head?_dropWhile_not
    (fun t : Token => t.kind != .endOfInput) ts
  unfold ending at h
  rw [h, List.head?_cons] at hHead
  simpa using hHead

/- Behind tokens before the end, the end is found first. -/
theorem find?_append_ending
    (h : us <:+ body ts) :
    (us ++ ending ts).find? (fun t => t.kind == .endOfInput) =
      (ending ts).head? := by
  have hus :
      us.find? (fun t => t.kind == .endOfInput) = none := by
    rw [List.find?_eq_none]
    intro t ht
    simpa using ne_endOfInput_of_suffix h t ht
  rw [List.find?_append, hus, Option.none_or]
  cases hEnding : ending ts with
  | nil => rfl
  | cons e more =>
      have he : (e.kind == .endOfInput) = true :=
        beq_iff_eq.mpr (kind_of_ending_eq_cons hEnding)
      rw [List.head?_cons, List.find?_cons, he]

/- The first token that ends the input is the end. -/
theorem find?_eq_head?_ending
    (ts : List Token) :
    ts.find? (fun t => t.kind == .endOfInput) =
      (ending ts).head? := by
  have hWhole := find?_append_ending
    (List.suffix_refl (body ts))
  rwa [body_append_ending] at hWhole

/-
  A final part of what is before the end is what is before
  the end, if the same tokens follow.
-/
theorem body_append_ending_of_suffix
    (h : us <:+ body ts) :
    body (us ++ ending ts) = us := by
  have hus := ne_endOfInput_of_suffix h
  unfold body
  rw [List.takeWhile_append_of_pos hus]
  cases hEnding : ending ts with
  | nil => rw [List.takeWhile_nil, List.append_nil]
  | cons e more =>
      have he := kind_of_ending_eq_cons hEnding
      rw [List.takeWhile_cons_of_neg (by simp [he]),
        List.append_nil]

/- It also ends on the same line. -/
theorem endLine_append_ending_of_suffix
    (h : us <:+ body ts)
    (hne : us ≠ []) :
    endLine (us ++ ending ts) = endLine ts := by
  unfold endLine
  rw [find?_append_ending h, find?_eq_head?_ending]
  cases hEnding : ending ts with
  | cons e more => rfl
  | nil =>
      have hLast : us.getLast? = ts.getLast? := by
        have hBody := body_append_ending ts
        rw [hEnding, List.append_nil] at hBody
        rw [hBody] at h
        rcases h with ⟨vs, rfl⟩
        rw [List.getLast?_append,
          List.getLast?_eq_some_getLast hne, Option.some_or]
      rw [List.append_nil, List.head?_nil, hLast]

/- A program that is left is read like a program. -/
theorem parseAll_eq_programWithin_of_suffix
    (h : us <:+ body ts) :
    parseAll ⟨limits, endLine ts⟩ us =
      programWithin limits (us ++ ending ts) := by
  unfold programWithin
  rw [body_append_ending_of_suffix h]
  cases us with
  | nil => rw [parseAll_nil, parseAll_nil]
  | cons t us =>
      rw [endLine_append_ending_of_suffix h
        (List.cons_ne_nil t us)]

/-
  After any attempts, the rest of a program is read like a
  program of the tokens that are left.  Where the next attempt
  fails, the failure tells how many of the blocks that it
  opened are open, and reading resumes accordingly.
-/
theorem programWithin_of_attempted
    {items : List (Except ParseError Decl)}
    (h :
      Attempted ⟨limits, endLine ts⟩ (body ts) items us) :
    programWithin limits ts =
        items ++ programWithin limits (us ++ ending ts) ∧
      ∀ f, us ≠ [] →
        Decl.parse ⟨limits, endLine ts⟩ limits.depthRoom us =
            .failed f →
          ∃ consumed,
            us = consumed ++ f.rest ∧
              Token.closes consumed + f.opened =
                Token.opens consumed ∧
              Token.Resumes consumed.isEmpty f.opened f.rest
                (f.boundary us) := by
  refine ⟨?_, ?_⟩
  · rw [← parseAll_eq_programWithin_of_suffix h.suffix]
    exact h.parseAll_eq
  · intro f hne hParse
    have hAccounts := accounts_parse ⟨limits, endLine ts⟩
      limits.depthRoom us
    rw [hParse] at hAccounts
    rcases hAccounts.of_failed with
      ⟨consumed, hus, hNests⟩
    have hStuck :
        (f.rest.length == us.length) = consumed.isEmpty := by
      rw [hus, List.length_append]
      cases consumed with
      | nil => simp
      | cons t consumed => simp
    refine ⟨consumed, hus, ?_, ?_⟩
    · rw [hNests.closes_add, Nat.zero_add]
    · unfold Failure.boundary
      rw [hStuck]
      apply Token.resumes_resume
      intro hEmpty hRest
      apply hne
      rw [hus, hRest, List.isEmpty_iff.mp hEmpty,
        List.append_nil]

/- The tokens of a block that breaks off, and of a print. -/
def brokenBlock : List Token :=
  [.plain .leftBrace "\x7b", .plain .rightParen ")",
    .plain .rightBrace "\x7d", .plain .printWord "print",
    .plain .nilWord "nil", .endOfInput 1]

/- How the attempt at the block fails. -/
def brokenFailure : Failure :=
  ⟨⟨1, .unexpectedToken ")" "an expression"⟩,
    (body brokenBlock).drop 1, 1⟩

/- After a block that breaks off, its end is looked for. -/
theorem programWithin_of_attempted_brokenBlock :
    (Attempted ⟨.standard, 1⟩ (body brokenBlock)
        [.error brokenFailure.error]
        ((body brokenBlock).drop 3) ∧
      programWithin .standard brokenBlock =
        [.error brokenFailure.error] ++
          programWithin .standard (brokenBlock.drop 3)) ∧
    ∃ consumed,
      body brokenBlock = consumed ++ brokenFailure.rest ∧
        Token.closes consumed + 1 = Token.opens consumed ∧
        Token.Resumes consumed.isEmpty 1 brokenFailure.rest
          ((body brokenBlock).drop 3) := by
  have hParse :
      Decl.parse ⟨.standard, 1⟩ Limits.standard.depthRoom
          (body brokenBlock) =
        .failed brokenFailure := by
    cbv
  have hFailed :
      Attempted ⟨.standard, 1⟩ (body brokenBlock)
        [.error brokenFailure.error]
        ((body brokenBlock).drop 3) :=
    .failed .start (List.cons_ne_nil _ _) hParse
  have hRest :=
    @programWithin_of_attempted .standard brokenBlock _ _
      hFailed
  have hFirst :=
    @programWithin_of_attempted .standard brokenBlock _ _
      .start
  exact ⟨⟨hFailed, hRest.1⟩,
    hFirst.2 brokenFailure (List.cons_ne_nil _ _) hParse⟩

end Decl

end Lox
