import Lox.Proofs.Scanning.Joining

/-
  The pieces that the items of a scan stand for.

  Every item of a scan stands for a piece of the source: the
  one that a token or an error was read off.  In order, the
  pieces are the source, and an item is on the line that the
  line feeds of the pieces before its own lead to.  A source
  cannot be cut in two ways that both suit its items.

  Key definitions include:
    * `Token.itemLine`
    * `Lexeme.IsItem`
    * `Token.Covers`

  Key theorems include:
    * `Lexeme.isItem_read`
    * `Token.covers_readAll`
    * `Token.Covers.unique`
    * `Token.exists_covers_scanFrom`
-/

namespace Lox

variable {cs rest : List Char} {c : Char}
variable {w v : Lexeme} {ws vs : List Lexeme}
variable {line start : Int} {i : Nat}
variable {item : Except LexError Token}
variable {items : List (Except LexError Token)}

------------------------------------------------------------
-- Definitions
------------------------------------------------------------

/- The line of an item. -/
def Token.itemLine : Except LexError Token → Int
  | .ok t => t.line
  | .error e => e.line

/-
  Whether an item stands for a piece.  Where it holds a text,
  this is the text of the piece.  A text that is not closed
  is a quotation mark and what follows it, up to no other.
-/
def Lexeme.IsItem
    (w : Lexeme) : Except LexError Token → Prop
  | .ok t => t.lexeme = w.text
  | .error ⟨_, .unexpectedCharacter c⟩ => w.chars = [c]
  | .error ⟨_, .invalidNumber lexeme⟩ => lexeme = w.text
  | .error ⟨_, .unterminatedString⟩ =>
      w.first = '"' ∧ '"' ∉ w.more

/-
  Whether items, the first of which is on a line, stand for
  pieces, one by one.
-/
structure Token.Covers
    (line : Int)
    (ws : List Lexeme)
    (items : List (Except LexError Token)) : Prop where
  length_eq : items.length = ws.length
  isItem :
    ∀ (i : Nat) (w : Lexeme) item,
      ws[i]? = some w → items[i]? = some item →
        w.IsItem item
  line_eq :
    ∀ (i : Nat) item, items[i]? = some item →
      itemLine item =
        line + newlines ((ws.take i).flatMap Lexeme.chars)
  is_last :
    ∀ (i : Nat) e, items[i]? = some (.error e) →
      e.cause = .unterminatedString → i + 1 = items.length

------------------------------------------------------------
-- Single Pieces
------------------------------------------------------------

namespace Lexeme

/- A piece is told from others by its characters. -/
theorem chars_injective
    (h : w.chars = v.chars) :
    w = v := by
  cases w
  cases v
  cases h
  rfl

/- A piece is told from others by its text. -/
theorem text_injective
    (h : w.text = v.text) :
    w = v := by
  have hChars := congrArg String.toList h
  simp only [text, String.toList_ofList] at hChars
  exact chars_injective hChars

/- What is read off a piece is on the line of the piece. -/
theorem itemLine_read
    (w : Lexeme)
    (line : Int) :
    Token.itemLine (w.read line) = line := by
  unfold read
  dsimp only
  repeat' split
  all_goals rfl

/- What all passes the test is taken, and nothing is left. -/
theorem span_self
    {p : Char → Bool}
    (h : ∀ d ∈ cs, p d = true) :
    cs.takeWhile p = cs ∧ cs.dropWhile p = [] := by
  have hSpan :
      (cs ++ []).takeWhile p = cs ∧
        (cs ++ []).dropWhile p = [] :=
    span_append h nofun
  rwa [List.append_nil] at hSpan

/- A text ends at the first quotation mark. -/
theorem following_quote_of_closed
    {body : List Char}
    (h : '"' ∉ body)
    (after : List Char) :
    following '"' (body ++ '"' :: after) =
      (body ++ ['"'], after) := by
  have hBody : ∀ d ∈ body, d ≠ '"' := by
    rintro d hd rfl
    exact h hd
  have hFollowing :=
    parts_text hBody after '"' (body ++ ['"']) rfl
  rwa [List.append_assoc] at hFollowing

/- Without one, it goes on to the end. -/
theorem following_quote_of_open
    (h : '"' ∉ cs) :
    following '"' cs = (cs, []) := by
  have hBody : ∀ d ∈ cs, (d != '"') = true := by
    intro d hd
    rw [bne_iff_ne]
    rintro rfl
    exact h hd
  rcases span_self hBody with ⟨hTake, hDrop⟩
  rw [following_quote, hTake, hDrop]

/- A text is closed, or there is nothing after it. -/
theorem following_quote_of_getLast?
    (h : (following '"' rest).1.getLast? ≠ some '"') :
    '"' ∉ (following '"' rest).1 ∧
      (following '"' rest).2 = [] := by
  by_cases hMem : '"' ∈ rest
  · rcases List.eq_append_cons_of_mem hMem with
      ⟨body, after, rfl, hBody⟩
    rw [following_quote_of_closed hBody] at h
    exact absurd List.getLast?_concat h
  · rw [following_quote_of_open hMem]
    exact ⟨hMem, rfl⟩

/-
  How a piece is no token: it is a single character, or a
  number, or a text that goes on to the end of the source.
-/
theorem error_cases
    {e : LexError}
    (h : read line ⟨c, (following c rest).1⟩ = .error e) :
    e.cause = .unexpectedCharacter c ∧
        following c rest = ([], rest) ∨
      e.cause =
          .invalidNumber
            (text ⟨c, (following c rest).1⟩) ∨
      e.cause = .unterminatedString ∧ c = '"' ∧
        '"' ∉ (following c rest).1 ∧
        (following c rest).2 = [] := by
  unfold read at h
  dsimp only at h
  split at h
  · cases h
  · split at h
    · cases h
    · rename_i hSlash
      split at h
      · cases h
      · cases h
      · rename_i hPaired
        split at h
        · rename_i hQuote
          subst hQuote
          split at h
          · cases h
          · rename_i hOpen
            cases h
            exact .inr (.inr ⟨rfl, rfl,
              following_quote_of_getLast? hOpen⟩)
        · rename_i hQuote
          split at h
          · split at h
            · cases h
            · cases h
              exact .inr (.inl rfl)
          · rename_i hDigit
            split at h
            · cases h
            · rename_i hWord
              cases h
              refine .inl ⟨rfl, ?_⟩
              have hPairs : ¬ pairsWithEqual c = true := by
                simp [pairsWithEqual_eq_isSome, hPaired]
              unfold following
              rw [if_neg hSlash, if_neg hPairs,
                if_neg hQuote, if_neg hDigit, if_neg hWord]

/- The item that is read off a piece stands for the piece. -/
theorem isItem_read
    (c : Char)
    (rest : List Char)
    (line : Int) :
    IsItem ⟨c, (following c rest).1⟩
      (read line ⟨c, (following c rest).1⟩) := by
  cases hRead : read line ⟨c, (following c rest).1⟩ with
  | ok t => exact (spells_of_read ⟨rest, rfl⟩ hRead).2.1
  | error e =>
      rcases e with ⟨_, cause⟩
      rcases error_cases hRead with
        ⟨rfl, hFollowing⟩ | rfl | ⟨rfl, rfl, hBody, -⟩
      · rw [hFollowing]
        rfl
      · rfl
      · exact ⟨rfl, hBody⟩

/- An item that holds its text stands for one piece only. -/
theorem IsItem.unique
    (hw : w.IsItem item)
    (hv : v.IsItem item)
    (hClosed :
      ∀ line, item ≠ .error ⟨line, .unterminatedString⟩) :
    w = v := by
  rcases item with ⟨line, c | _ | lexeme⟩ | t
  · exact chars_injective (hw.trans hv.symm)
  · exact absurd rfl (hClosed line)
  · exact text_injective (hw.symm.trans hv)
  · exact text_injective (hw.symm.trans hv)

------------------------------------------------------------
-- Pieces in a Row
------------------------------------------------------------

/- From each of its pieces on, a text is cut as if alone. -/
theorem exists_drop_cut_eq
    (h : (cut cs)[i]? = some w) :
    ∃ c rest,
      w = ⟨c, (following c rest).1⟩ ∧
        (cut cs).drop i = cut (c :: rest) := by
  fun_induction cut cs generalizing i with
  | case1 => cases h
  | case2 c rest ih =>
      cases i with
      | zero =>
          cases h
          exact ⟨c, rest, rfl, by rw [cut, List.drop_zero]⟩
      | succ i => exact ih h

end Lexeme

namespace Token

/- A piece is read on the line that those before it lead to. -/
theorem getElem?_readAll
    (line : Int)
    (ws : List Lexeme)
    (i : Nat) :
    (readAll line ws)[i]? =
      ws[i]?.map fun w =>
        w.read
          (line +
            newlines ((ws.take i).flatMap Lexeme.chars)) := by
  induction ws generalizing line i with
  | nil => rfl
  | cons w ws ih =>
      rw [readAll]
      cases i with
      | zero => simp [newlines]
      | succ i =>
          rw [List.getElem?_cons_succ, ih,
            List.take_succ_cons, add_newlines_cons,
            List.getElem?_cons_succ]

/- There is an item for every piece. -/
theorem length_readAll
    (line : Int)
    (ws : List Lexeme) :
    (readAll line ws).length = ws.length := by
  induction ws generalizing line with
  | nil => rfl
  | cons w ws ih =>
      rw [readAll, List.length_cons, ih, List.length_cons]

/- What is read off a text stands for the text's pieces. -/
theorem covers_readAll
    (line : Int)
    (cs : List Char) :
    Covers line (Lexeme.cut cs)
      (readAll line (Lexeme.cut cs)) where
  length_eq := length_readAll line _
  isItem i w item hw hItem := by
    rw [getElem?_readAll, hw, Option.map_some,
      Option.some.injEq] at hItem
    rcases Lexeme.exists_drop_cut_eq hw with
      ⟨c, rest, rfl, -⟩
    rw [← hItem]
    exact Lexeme.isItem_read c rest _
  line_eq i item hItem := by
    rw [getElem?_readAll] at hItem
    rcases Option.map_eq_some_iff.mp hItem with ⟨w, -, rfl⟩
    exact w.itemLine_read _
  is_last i e hItem hCause := by
    rw [getElem?_readAll] at hItem
    rcases Option.map_eq_some_iff.mp hItem with
      ⟨w, hw, hRead⟩
    rcases Lexeme.exists_drop_cut_eq hw with
      ⟨c, rest, rfl, hDrop⟩
    have hRest : (Lexeme.following c rest).2 = [] := by
      rcases Lexeme.error_cases hRead with
        ⟨hOther, -⟩ | hOther | ⟨-, -, -, hRest⟩
      · rw [hCause] at hOther
        cases hOther
      · rw [hCause] at hOther
        cases hOther
      · exact hRest
    have hLength := congrArg List.length hDrop
    rw [Lexeme.cut, hRest, Lexeme.cut, List.length_drop,
      List.length_singleton] at hLength
    rw [length_readAll]
    omega

namespace Covers

/- After its first piece and item, the rest is covered. -/
theorem tail
    (h : Covers line (w :: ws) (item :: items)) :
    Covers (line + newlines w.chars) ws items where
  length_eq := Nat.succ.inj h.length_eq
  isItem i v other hv hOther :=
    h.isItem (i + 1) v other hv hOther
  line_eq i other hOther := by
    rw [h.line_eq (i + 1) other hOther, List.take_succ_cons,
      add_newlines_cons]
  is_last i e hItem hCause :=
    Nat.succ.inj (h.is_last (i + 1) e hItem hCause)

/- After a text that is not closed, there is nothing. -/
theorem eq_nil_of_unterminated
    (h :
      Covers line (w :: ws)
        (.error ⟨start, .unterminatedString⟩ :: items)) :
    ws = [] := by
  have hItems := h.is_last 0 _ rfl rfl
  have hPieces := h.length_eq
  rw [← hItems] at hPieces
  exact List.eq_nil_of_length_eq_zero
    (Nat.succ.inj hPieces.symm)

/- The items and the text tell how the text is cut. -/
theorem unique
    (hw : Covers line ws items)
    (hv : Covers line vs items)
    (hText :
      ws.flatMap Lexeme.chars = vs.flatMap Lexeme.chars) :
    ws = vs := by
  have hLength := hw.length_eq.symm.trans hv.length_eq
  induction ws generalizing line vs items with
  | nil =>
      symm
      exact List.eq_nil_of_length_eq_zero hLength.symm
  | cons w ws ih =>
      cases vs with
      | nil => cases hLength
      | cons v vs =>
          cases items with
          | nil => cases hw.length_eq
          | cons item items =>
              have hFirst := hw.isItem 0 w item rfl rfl
              have hOther := hv.isItem 0 v item rfl rfl
              rw [List.flatMap_cons,
                List.flatMap_cons] at hText
              by_cases hOpen :
                  ∃ line,
                    item = .error ⟨line, .unterminatedString⟩
              · rcases hOpen with ⟨line, rfl⟩
                have hws := hw.eq_nil_of_unterminated
                have hvs := hv.eq_nil_of_unterminated
                subst hws hvs
                simp only [List.flatMap_nil,
                  List.append_nil] at hText
                rw [Lexeme.chars_injective hText]
              · have hSame : w = v :=
                  hFirst.unique hOther fun line hItem =>
                    hOpen ⟨line, hItem⟩
                subst hSame
                rw [ih hw.tail hv.tail
                  (List.append_cancel_left hText)
                  (Nat.succ.inj hLength)]

end Covers

------------------------------------------------------------
-- Scans
------------------------------------------------------------

/-
  A source that is scanned from a line can be cut into pieces
  in one way only such that the items of the scan stand for
  them, one by one and in order.  After these items comes the
  end of the input, and nowhere else; it is on the line that
  all line feeds of the source lead to.
-/
theorem exists_covers_scanFrom
    (line : Int)
    (source : String) :
    ∃ items ws,
      scanFrom line source =
          items ++
            [.ok (endOfInput
              (line + newlines source.toList))] ∧
        (∀ t, .ok t ∈ items → t.kind ≠ .endOfInput) ∧
        ws.flatMap Lexeme.chars = source.toList ∧
        Covers line ws items ∧
        ∀ vs : List Lexeme,
          vs.flatMap Lexeme.chars = source.toList →
            Covers line vs items → vs = ws := by
  have hText := Lexeme.flatMap_chars_cut source.toList
  have hCovers := covers_readAll line source.toList
  refine ⟨_, _, ?_, ?_, hText, hCovers, ?_⟩
  · unfold scanFrom
    rw [scanLexemes_eq, hText]
  · exact fun t ht => ne_endOfInput_of_mem_readAll
      (fun w hw => Lexeme.isPiece_of_mem_cut hw) ht
  · exact fun vs hvs hOther =>
      hOther.unique hCovers (hvs.trans hText.symm)

end Token

end Lox
