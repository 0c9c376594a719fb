import Lox.Proofs.Scanning.Pieces

/-
  Every piece is the longest one there can be.

  Where a piece starts, it takes as much of the text as can
  be scanned as a single item.  What it is scanned as does
  not depend on the text around it: the piece by itself, on
  its own line, is scanned as the same item.

  Key definitions include:
    * `Token.IsSingle`
    * `Lexeme.IsLongest`

  Key theorems include:
    * `Lexeme.following_prefix_append`
    * `Lexeme.following_following`
    * `Token.isSingle_iff`
    * `Token.exists_longest_scanFrom`
-/

namespace Lox

variable {cs more rest : List Char} {c : Char}
variable {line : Int}

------------------------------------------------------------
-- Definitions
------------------------------------------------------------

/- Whether a text is scanned as one item, and the end. -/
def Token.IsSingle
    (line : Int)
    (cs : List Char) : Prop :=
  ∃ item after,
    scanFrom line (String.ofList cs) =
      [item, .ok (endOfInput after)]

/-
  Whether a piece is the longest part, from the start of a
  text on, that is scanned as one item.
-/
structure Lexeme.IsLongest
    (line : Int)
    (w : Lexeme)
    (text : List Char) : Prop where
  isPrefix : w.chars <+: text
  isSingle : Token.IsSingle line w.chars
  length_le :
    ∀ us, us ≠ [] → us <+: text → Token.IsSingle line us →
      us.length ≤ w.chars.length

------------------------------------------------------------
-- Taking More
------------------------------------------------------------

namespace Lexeme

/- Taking goes on at least as far if the text goes on. -/
theorem takeWhile_prefix_append
    (p : Char → Bool)
    (cs ds : List Char) :
    cs.takeWhile p <+: (cs ++ ds).takeWhile p := by
  rw [List.takeWhile_append]
  split
  · exact (List.takeWhile_prefix p).trans
      (List.prefix_append cs _)
  · exact List.prefix_rfl

/- How the first character of a piece tells what follows it. -/
theorem following_cases
    (c : Char) :
    c = '/' ∨ c = '"' ∨ (∃ pair, paired? c = some pair) ∨
      ∃ p : Char → Bool,
        ∀ rest,
          following c rest =
            (rest.takeWhile p, rest.dropWhile p) := by
  by_cases hSlash : c = '/'
  · exact .inl hSlash
  by_cases hQuote : c = '"'
  · exact .inr (.inl hQuote)
  by_cases hPairs : pairsWithEqual c = true
  · rw [pairsWithEqual_eq_isSome] at hPairs
    exact .inr (.inr (.inl
      (Option.isSome_iff_exists.mp hPairs)))
  refine .inr (.inr (.inr ?_))
  by_cases hDigit : c.isDigit = true
  · exact ⟨inNumber, following_of_isDigit hDigit⟩
  by_cases hWord : startsWord c = true
  · exact ⟨inWord, following_of_startsWord hWord⟩
  refine ⟨fun _ => false, fun rest => ?_⟩
  unfold following
  rw [if_neg hSlash, if_neg hPairs, if_neg hQuote,
    if_neg hDigit, if_neg hWord]
  cases rest <;> rfl

/- A slash starts a comment if another one follows it. -/
theorem following_slash_slash
    (rest : List Char) :
    following '/' ('/' :: rest) =
      (('/' :: rest).takeWhile (· != '\n'),
        ('/' :: rest).dropWhile (· != '\n')) :=
  rfl

/- Otherwise it stands alone. -/
theorem following_slash_of_ne
    (h : ∀ d ∈ rest.head?, d ≠ '/') :
    following '/' rest = ([], rest) := by
  cases rest with
  | nil => rfl
  | cons d rest =>
      have hd := h d rfl
      unfold following
      simp [hd]

/- A text that is opened goes on as far if more follows. -/
theorem following_quote_prefix_append
    (cs ds : List Char) :
    (following '"' cs).1 <+:
      (following '"' (cs ++ ds)).1 := by
  by_cases hFirst : '"' ∈ cs
  · rcases List.eq_append_cons_of_mem hFirst with
      ⟨body, after, rfl, hBody⟩
    refine ⟨[], ?_⟩
    rw [List.append_nil, List.append_assoc, List.cons_append,
      following_quote_of_closed hBody,
      following_quote_of_closed hBody]
  · rw [following_quote_of_open hFirst]
    by_cases hSecond : '"' ∈ ds
    · rcases List.eq_append_cons_of_mem hSecond with
        ⟨body, after, rfl, hBody⟩
      have hBoth : '"' ∉ cs ++ body := by
        simp [hFirst, hBody]
      rw [← List.append_assoc,
        following_quote_of_closed hBoth, List.append_assoc]
      exact List.prefix_append cs _
    · have hBoth : '"' ∉ cs ++ ds := by
        simp [hFirst, hSecond]
      rw [following_quote_of_open hBoth]
      exact List.prefix_append cs ds

/- What belongs to a piece still does if the text goes on. -/
theorem following_prefix_append
    (c : Char)
    (cs ds : List Char) :
    (following c cs).1 <+: (following c (cs ++ ds)).1 := by
  rcases following_cases c with
    rfl | rfl | ⟨pair, hPair⟩ | ⟨p, hTake⟩
  · cases cs with
    | nil => exact List.nil_prefix
    | cons d cs =>
        by_cases hSlash : d = '/'
        · subst hSlash
          rw [List.cons_append, following_slash_slash,
            following_slash_slash]
          exact takeWhile_prefix_append (· != '\n')
            ('/' :: cs) ds
        · rw [following_slash_of_ne (by simpa using hSlash)]
          exact List.nil_prefix
  · exact following_quote_prefix_append cs ds
  · rw [following_of_paired? hPair,
      following_of_paired? hPair]
    cases cs with
    | nil => exact List.nil_prefix
    | cons d cs =>
        by_cases hEqual : d = '='
        · subst hEqual
          exact List.prefix_rfl
        · simp [hEqual]
  · rw [hTake, hTake]
    exact takeWhile_prefix_append p cs ds

/- What belongs to a piece belongs to it without the rest. -/
theorem following_following
    (c : Char)
    (rest : List Char) :
    following c (following c rest).1 =
      ((following c rest).1, []) := by
  have hAgain :
      ∀ (p : Char → Bool) (cs : List Char),
        (cs.takeWhile p).takeWhile p = cs.takeWhile p ∧
          (cs.takeWhile p).dropWhile p = [] := by
    intro p cs
    exact span_self (List.all_eq_true.mp List.all_takeWhile)
  rcases following_cases c with
    rfl | rfl | ⟨pair, hPair⟩ | ⟨p, hTake⟩
  · cases rest with
    | nil => rfl
    | cons d rest =>
        by_cases hSlash : d = '/'
        · subst hSlash
          rcases hAgain (· != '\n') ('/' :: rest) with
            ⟨hSame, hNone⟩
          rw [following_slash_slash]
          rw [List.takeWhile_cons_of_pos (by decide)]
            at hSame hNone ⊢
          rw [following_slash_slash, hSame, hNone]
        · have hAlone :
              following '/' (d :: rest) = ([], d :: rest) :=
            following_slash_of_ne (by simpa using hSlash)
          rw [hAlone]
          rfl
  · by_cases hMem : '"' ∈ rest
    · rcases List.eq_append_cons_of_mem hMem with
        ⟨body, after, rfl, hBody⟩
      rw [following_quote_of_closed hBody,
        following_quote_of_closed hBody]
    · rw [following_quote_of_open hMem,
        following_quote_of_open hMem]
  · rw [following_of_paired? hPair,
      following_of_paired? hPair]
    cases rest with
    | nil => rfl
    | cons d rest =>
        by_cases hEqual : d = '='
        · subst hEqual
          rfl
        · simp [hEqual]
  · rcases hAgain p rest with ⟨hSame, hNone⟩
    rw [hTake, hTake, hSame, hNone]

/- Nothing but an empty text has no pieces. -/
theorem cut_eq_nil
    (h : cut cs = []) :
    cs = [] := by
  have hText := flatMap_chars_cut cs
  rw [h] at hText
  exact hText.symm

end Lexeme

------------------------------------------------------------
-- Single Items
------------------------------------------------------------

/-
  A text is scanned as one item if all of it belongs to the
  piece that its first character starts.
-/
theorem Token.isSingle_iff :
    IsSingle line (c :: more) ↔
      Lexeme.following c more = (more, []) := by
  unfold IsSingle scanFrom
  rw [String.toList_ofList, Lexeme.cut, scanLexemes_eq]
  constructor
  · rintro ⟨item, after, hScan⟩
    have hMore := Lexeme.following_append c more
    have hRest : (Lexeme.following c more).2 = [] := by
      have hLength := congrArg List.length hScan
      rw [List.length_append, length_readAll] at hLength
      apply Lexeme.cut_eq_nil
      apply List.eq_nil_of_length_eq_zero
      simpa using hLength
    rw [hRest, List.append_nil] at hMore
    exact Prod.ext hMore hRest
  · intro hFollowing
    rw [hFollowing, Lexeme.cut]
    exact ⟨_, _, rfl⟩

namespace Lexeme

/- A piece by itself is scanned as what is read off it. -/
theorem scanFrom_piece
    (c : Char)
    (rest : List Char)
    (line : Int) :
    Token.scanFrom line (text ⟨c, (following c rest).1⟩) =
      [read line ⟨c, (following c rest).1⟩,
        .ok (Token.endOfInput
          (line +
            Token.newlines
              (chars ⟨c, (following c rest).1⟩)))] := by
  unfold Token.scanFrom text
  rw [String.toList_ofList, chars, cut, following_following,
    cut, Token.scanLexemes, Token.scanLexemes]
  rfl

/- A piece is the longest part that is scanned as one item. -/
theorem isLongest_piece
    (c : Char)
    (rest : List Char)
    (line : Int) :
    IsLongest line ⟨c, (following c rest).1⟩
      (c :: rest) where
  isPrefix := by
    rw [chars, List.prefix_cons_inj]
    exact ⟨_, following_append c rest⟩
  isSingle :=
    Token.isSingle_iff.mpr (following_following c rest)
  length_le us hne hPrefix hSingle := by
    cases us with
    | nil => exact absurd rfl hne
    | cons d us =>
        rcases List.cons_prefix_cons.mp hPrefix with
          ⟨rfl, ds, rfl⟩
        have hLonger := following_prefix_append d us ds
        rw [Token.isSingle_iff.mp hSingle] at hLonger
        exact Nat.succ_le_succ hLonger.length_le

end Lexeme

------------------------------------------------------------
-- Scans
------------------------------------------------------------

/-
  A source that is scanned from a line is cut into pieces
  that its items stand for.  Each piece is the longest part
  of what is left of the source there that is scanned, from
  the line of its item, as one item; and it is scanned as
  that very item.
-/
theorem Token.exists_longest_scanFrom
    (line : Int)
    (source : String) :
    ∃ items ws after,
      scanFrom line source =
          items ++ [.ok (endOfInput after)] ∧
        ws.flatMap Lexeme.chars = source.toList ∧
        Covers line ws items ∧
        ∀ (i : Nat) (w : Lexeme) item,
          ws[i]? = some w → items[i]? = some item →
            scanFrom (itemLine item) w.text =
                [item,
                  .ok (endOfInput
                    (itemLine item + newlines w.chars))] ∧
              w.IsLongest (itemLine item)
                ((ws.drop i).flatMap Lexeme.chars) := by
  have hText := Lexeme.flatMap_chars_cut source.toList
  refine ⟨_, _, _, scanLexemes_eq line _, hText,
    covers_readAll line source.toList, ?_⟩
  intro i w item hw hItem
  rw [getElem?_readAll, hw, Option.map_some,
    Option.some.injEq] at hItem
  rcases Lexeme.exists_drop_cut_eq hw with
    ⟨c, rest, rfl, hDrop⟩
  rw [← hItem, Lexeme.itemLine_read, hDrop,
    Lexeme.flatMap_chars_cut]
  exact ⟨Lexeme.scanFrom_piece c rest _,
    Lexeme.isLongest_piece c rest _⟩

end Lox
