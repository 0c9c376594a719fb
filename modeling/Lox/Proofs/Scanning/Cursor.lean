import Lox.Proofs.Scanning.Longest

/-
  Scanning character by character.

  A scanner keeps a cursor into its text, the character under
  it, and the line that it is on.  It reads a token by moving
  the cursor on until what is under it does not belong to the
  token, counts the line feeds that the cursor passes, and
  goes on after a character, a number or a text that is no
  token.  So it passes over the pieces into which the text is
  cut, and reads off each of them what the piece is read as.

  Key definitions include:
    * `Scanner`
    * `Scanner.advance`
    * `Scanner.nextToken`
    * `Scanner.scanTokens`
    * `Scanner.Passes`

  Key theorems include:
    * `Scanner.passes_readWhile`
    * `Scanner.reads_nextToken`
    * `Scanner.scanTokens_eq`
    * `Token.scanFrom_eq_scanTokens`
-/

namespace Lox

variable {c : Char} {cs ds rest : List Char}

------------------------------------------------------------
-- Scanners
------------------------------------------------------------

/-
  A text, the place of the cursor in it, the character there,
  unless the text is at its end, and the line of the place.
-/
structure Scanner where
  text : List Char
  pos : Nat
  current : Option Char
  line : Int
  current_eq : current = text[pos]?

namespace Scanner

/- A scanner at the start of a text that starts on a line. -/
def start
    (line : Int)
    (text : List Char) : Scanner where
  text := text
  pos := 0
  current := text[0]?
  line := line
  current_eq := rfl

/- Move on by a character; after a line feed is a new line. -/
def advance
    (s : Scanner) : Scanner where
  text := s.text
  pos := s.pos + 1
  current := s.text[s.pos + 1]?
  line := if s.current = some '\n' then s.line + 1 else s.line
  current_eq := rfl

/- The character after the one under the cursor. -/
def peek
    (s : Scanner) : Option Char :=
  s.text[s.pos + 1]?

/- The text from the cursor on. -/
def ahead
    (s : Scanner) : List Char :=
  s.text.drop s.pos

/- The character under the cursor is the next one. -/
theorem current_eq_head?
    (s : Scanner) :
    s.current = s.ahead.head? := by
  rw [s.current_eq, ahead, List.head?_drop]

/- The character after it is the one to move on to. -/
theorem peek_eq_head?
    (s : Scanner) :
    s.peek = s.advance.ahead.head? :=
  s.advance.current_eq_head?

/- Moving on, the character under the cursor is left behind. -/
theorem ahead_advance
    {s : Scanner}
    (h : s.current = some c) :
    s.ahead = c :: s.advance.ahead := by
  rw [current_eq_head?] at h
  rcases List.head?_eq_some_iff.mp h with ⟨more, hMore⟩
  have hTail : s.advance.ahead = s.ahead.tail := by
    rw [ahead, ahead, List.tail_drop]
    rfl
  rw [hTail, hMore]
  rfl

/- Add characters to a result as long as they belong to it. -/
def readWhile
    (belongs : Char → Bool)
    (result : String)
    (s : Scanner) : String × Scanner :=
  match _h : s.current with
  | none => (result, s)
  | some c =>
      if belongs c then
        readWhile belongs (result.push c) s.advance
      else (result, s)
termination_by s.ahead.length
decreasing_by
  rw [ahead_advance _h]
  exact Nat.lt_succ_self _

/- The same for a number, of which the points are counted. -/
def readRun
    (dots : Nat)
    (result : String)
    (s : Scanner) : Nat × String × Scanner :=
  match _h : s.current with
  | none => (dots, result, s)
  | some c =>
      if Lexeme.inNumber c then
        readRun (if c = '.' then dots + 1 else dots)
          (result.push c) s.advance
      else (dots, result, s)
termination_by s.ahead.length
decreasing_by
  rw [ahead_advance _h]
  exact Nat.lt_succ_self _

------------------------------------------------------------
-- Tokens
------------------------------------------------------------

/- A token or an error, and the scanner after it. -/
abbrev Reading :=
  Except LexError Token × Scanner

/- Read a token of one character without a literal. -/
def readSingle
    (kind : Kind)
    (c : Char)
    (s : Scanner) : Reading :=
  (.ok ⟨kind, String.singleton c, .absent, s.line⟩,
    s.advance)

/- Read a comment, up to the end of its line. -/
def readComment
    (s : Scanner) : Reading :=
  let (result, after) := readWhile (· != '\n') "" s
  (.ok ⟨.comment, result, .absent, s.line⟩, after)

/- Read a text; it is an error if it is not closed. -/
def readString
    (s : Scanner) : Reading :=
  let (result, after) := readWhile (· != '"') "" s.advance
  match after.current with
  | none => (.error ⟨s.line, .unterminatedString⟩, after)
  | some _ =>
      (.ok ⟨.string, ("\"" ++ result).push '"',
          .text result, s.line⟩,
        after.advance)

/-
  Read a number.  All of it is passed over, also if it is an
  error for its points or for its size.
-/
def readNumber
    (s : Scanner) : Reading :=
  let (dots, result, after) := readRun 0 "" s
  if 1 < dots then
    (.error ⟨s.line, .invalidNumber result⟩, after)
  else
    match Lexeme.number? result.toList with
    | some n => (.ok ⟨.number, result, n, s.line⟩, after)
    | none => (.error ⟨s.line, .invalidNumber result⟩, after)

/- Read a word. -/
def readWord
    (s : Scanner) : Reading :=
  let (result, after) := readWhile Lexeme.inWord "" s
  let kind := Kind.ofWord result
  (.ok ⟨kind, result, Lexeme.wordLiteral kind, s.line⟩, after)

/- Read what the character under the cursor starts. -/
def nextToken
    (c : Char)
    (s : Scanner) : Reading :=
  if Lexeme.isBlank c then readSingle .blank c s
  else if c = '/' then
    if s.peek = some '/' then readComment s
    else readSingle .slash c s
  else
    match Lexeme.single? c, Lexeme.paired? c with
    | some kind, _ => readSingle kind c s
    | none, some (alone, withEqual) =>
        if s.peek = some '=' then
          (.ok ⟨withEqual, (String.singleton c).push '=',
              .absent, s.line⟩,
            s.advance.advance)
        else readSingle alone c s
    | none, none =>
        if c = '"' then readString s
        else if c.isDigit then readNumber s
        else if Lexeme.startsWord c then readWord s
        else
          (.error ⟨s.line, .unexpectedCharacter c⟩,
            s.advance)

------------------------------------------------------------
-- Passing over Characters
------------------------------------------------------------

variable {s after last : Scanner}

/-
  Whether a scanner is where another one gets that passes
  over characters.
-/
structure Passes
    (s : Scanner)
    (cs : List Char)
    (after : Scanner) : Prop where
  ahead_eq : s.ahead = cs ++ after.ahead
  line_eq : after.line = s.line + Token.newlines cs

/- A scanner that stays passes over nothing. -/
theorem Passes.refl
    (s : Scanner) :
    Passes s [] s where
  ahead_eq := rfl
  line_eq := (Int.add_zero s.line).symm

/- Characters are passed over one after the other. -/
theorem Passes.trans
    (h : Passes s cs after)
    (hMore : Passes after ds last) :
    Passes s (cs ++ ds) last where
  ahead_eq := by
    rw [h.ahead_eq, hMore.ahead_eq, List.append_assoc]
  line_eq := by
    rw [hMore.line_eq, h.line_eq, Token.newlines,
      Token.newlines, Token.newlines, List.count_append]
    omega

/- Moving on, the character under the cursor is passed over. -/
theorem passes_advance
    (h : s.current = some c) :
    Passes s [c] s.advance where
  ahead_eq := ahead_advance h
  line_eq := by
    unfold advance Token.newlines
    rw [h]
    by_cases hLine : c = '\n'
    · simp [hLine]
    · simp [hLine]

/- So it is before others. -/
theorem Passes.cons
    (h : s.current = some c)
    (hMore : Passes s.advance cs after) :
    Passes s (c :: cs) after :=
  (passes_advance h).trans hMore

/- What is ahead is what follows the characters passed over. -/
theorem Passes.ahead_of_append
    (h : Passes s cs after)
    (hAhead : s.ahead = cs ++ rest) :
    after.ahead = rest :=
  List.append_cancel_left (h.ahead_eq.symm.trans hAhead)

/- A character in front of others is added before them. -/
theorem push_append
    (result : String)
    (c : Char)
    (cs : List Char) :
    result.push c ++ String.ofList cs =
      result ++ String.ofList (c :: cs) := by
  apply String.toList_inj.mp
  simp

/-
  Characters that belong together are passed over, and added
  to the result.
-/
theorem passes_readWhile
    (belongs : Char → Bool)
    (result : String)
    (s : Scanner) :
    ∃ after,
      readWhile belongs result s =
          (result ++
              String.ofList (s.ahead.takeWhile belongs),
            after) ∧
        Passes s (s.ahead.takeWhile belongs) after := by
  fun_induction readWhile belongs result s with
  | case1 result s hEnd =>
      rw [current_eq_head?, List.head?_eq_none_iff] at hEnd
      rw [hEnd]
      exact ⟨s, by simp, .refl s⟩
  | case2 result s c hCurrent hBelongs ih =>
      rcases ih with ⟨after, hResult, hPasses⟩
      rw [ahead_advance hCurrent,
        List.takeWhile_cons_of_pos hBelongs, ← push_append]
      exact ⟨after, hResult, hPasses.cons hCurrent⟩
  | case3 result s c hCurrent hOther =>
      rw [ahead_advance hCurrent,
        List.takeWhile_cons_of_neg hOther]
      exact ⟨s, by simp, .refl s⟩

/- So are those of a number, and its points are counted. -/
theorem passes_readRun
    (dots : Nat)
    (result : String)
    (s : Scanner) :
    ∃ after,
      readRun dots result s =
          (dots +
              (s.ahead.takeWhile Lexeme.inNumber).count '.',
            result ++
              String.ofList
                (s.ahead.takeWhile Lexeme.inNumber),
            after) ∧
        Passes s (s.ahead.takeWhile Lexeme.inNumber)
          after := by
  fun_induction readRun dots result s with
  | case1 dots result s hEnd =>
      rw [current_eq_head?, List.head?_eq_none_iff] at hEnd
      rw [hEnd]
      exact ⟨s, by simp, .refl s⟩
  | case2 dots result s c hCurrent hBelongs ih =>
      rcases ih with ⟨after, hResult, hPasses⟩
      have hCount :
          (if c = '.' then dots + 1 else dots) +
              (s.advance.ahead.takeWhile
                Lexeme.inNumber).count '.' =
            dots +
              (c :: s.advance.ahead.takeWhile
                Lexeme.inNumber).count '.' := by
        rw [List.count_cons]
        split <;> simp_all
        omega
      rw [ahead_advance hCurrent,
        List.takeWhile_cons_of_pos hBelongs, ← push_append,
        ← hCount]
      exact ⟨after, hResult, hPasses.cons hCurrent⟩
  | case3 dots result s c hCurrent hOther =>
      rw [ahead_advance hCurrent,
        List.takeWhile_cons_of_neg hOther]
      exact ⟨s, by simp, .refl s⟩

------------------------------------------------------------
-- Reading Pieces
------------------------------------------------------------

/-
  Whether what is read is what a piece is read as, and the
  scanner passes over the piece.
-/
def Reads
    (s : Scanner)
    (w : Lexeme)
    (r : Reading) : Prop :=
  r.1 = w.read s.line ∧ Passes s w.chars r.2

/- A piece that spells a token is read as that token. -/
theorem reads_of_spells
    {w : Lexeme}
    {kind : Kind}
    {literal : Literal}
    (hSpells : Lexeme.Spells w.chars kind literal)
    (hPasses : Passes s w.chars after) :
    Reads s w
      (.ok ⟨kind, w.text, literal, s.line⟩, after) :=
  ⟨(hSpells.read rfl s.line).symm, hPasses⟩

/- A character is read if it is a token of its own. -/
theorem reads_readSingle
    {kind : Kind}
    (hCurrent : s.current = some c)
    (hSpells : Lexeme.Spells [c] kind .absent) :
    Reads s ⟨c, []⟩ (readSingle kind c s) := by
  have hText :
      Lexeme.text ⟨c, []⟩ = String.singleton c := by
    apply String.toList_inj.mp
    simp [Lexeme.text, Lexeme.chars]
  unfold readSingle
  rw [← hText]
  exact reads_of_spells hSpells (passes_advance hCurrent)

/- A comment is read up to the end of its line. -/
theorem reads_readComment
    (hAhead : s.ahead = '/' :: '/' :: rest) :
    Reads s ⟨'/', (Lexeme.following '/' ('/' :: rest)).1⟩
      (readComment s) := by
  rcases passes_readWhile (· != '\n') "" s with
    ⟨after, hResult, hPasses⟩
  have hTake :
      s.ahead.takeWhile (· != '\n') =
        '/' :: (Lexeme.following '/' ('/' :: rest)).1 := by
    rw [hAhead]
    rfl
  rw [hTake] at hResult hPasses
  rw [String.empty_append] at hResult
  unfold readComment
  rw [hResult]
  exact reads_of_spells .comment hPasses

/- A text is read up to its end, or to the end of all. -/
theorem reads_readString
    (hCurrent : s.current = some '"') :
    Reads s ⟨'"', (Lexeme.following '"' s.advance.ahead).1⟩
      (readString s) := by
  have hInside {cs : List Char} (h : '"' ∉ cs) :
      ∀ d ∈ cs, (d != '"') = true := by
    intro d hd
    rw [bne_iff_ne]
    exact fun hQuote => h (hQuote ▸ hd)
  rcases passes_readWhile (· != '"') "" s.advance with
    ⟨after, hResult, hPasses⟩
  rw [String.empty_append] at hResult
  unfold readString
  rw [hResult]
  dsimp only
  by_cases hMem : '"' ∈ s.advance.ahead
  · rcases List.eq_append_cons_of_mem hMem with
      ⟨body, more, hAhead, hBody⟩
    have hTake :
        s.advance.ahead.takeWhile (· != '"') = body := by
      rw [hAhead]
      exact (Lexeme.span_append (hInside hBody) (by simp)).1
    rw [hTake] at hPasses ⊢
    have hClose : after.current = some '"' := by
      rw [current_eq_head?, hPasses.ahead_of_append hAhead]
      rfl
    have hText :
        ("\"" ++ String.ofList body).push '"' =
          Lexeme.text ⟨'"', body ++ ['"']⟩ := by
      apply String.toList_inj.mp
      simp [Lexeme.text, Lexeme.chars]
    rw [hClose, hAhead,
      Lexeme.following_quote_of_closed hBody, hText]
    refine reads_of_spells (.text ?_) ?_
    · exact fun d hd => bne_iff_ne.mp (hInside hBody d hd)
    · exact (hPasses.trans (passes_advance hClose)).cons
        hCurrent
  · rw [(Lexeme.span_self (hInside hMem)).1] at hPasses ⊢
    have hEnd : after.current = none := by
      rw [current_eq_head?,
        hPasses.ahead_of_append (List.append_nil _).symm]
      rfl
    rw [hEnd, Lexeme.following_quote_of_open hMem]
    exact ⟨(Lexeme.read_quote_of_notMem hMem s.line).symm,
      hPasses.cons hCurrent⟩

/- A number is read, or what is none. -/
theorem reads_readNumber
    (hCurrent : s.current = some c)
    (hDigit : c.isDigit = true) :
    Reads s ⟨c, (Lexeme.following c s.advance.ahead).1⟩
      (readNumber s) := by
  have hNumber : Lexeme.inNumber c = true := by
    simp [Lexeme.inNumber, hDigit]
  rcases passes_readRun 0 "" s with ⟨after, hResult, hPasses⟩
  rw [ahead_advance hCurrent,
    List.takeWhile_cons_of_pos hNumber, Nat.zero_add,
    String.empty_append] at hResult
  rw [ahead_advance hCurrent,
    List.takeWhile_cons_of_pos hNumber] at hPasses
  rw [Lexeme.following_of_isDigit hDigit]
  unfold readNumber Reads
  rw [hResult, Lexeme.read_of_isDigit hDigit]
  dsimp only
  rw [String.toList_ofList]
  split
  · rename_i hDots
    have hNone :
        Lexeme.number?
            (Lexeme.chars ⟨c,
              s.advance.ahead.takeWhile Lexeme.inNumber⟩) =
          none :=
      if_pos hDots
    rw [hNone]
    exact ⟨rfl, hPasses⟩
  · unfold Lexeme.chars
    dsimp only
    cases Lexeme.number?
        (c :: s.advance.ahead.takeWhile Lexeme.inNumber) with
    | some n => exact ⟨rfl, hPasses⟩
    | none => exact ⟨rfl, hPasses⟩

/- A word is read. -/
theorem reads_readWord
    (hCurrent : s.current = some c)
    (hWord : Lexeme.startsWord c = true) :
    Reads s ⟨c, (Lexeme.following c s.advance.ahead).1⟩
      (readWord s) := by
  rcases passes_readWhile Lexeme.inWord "" s with
    ⟨after, hResult, hPasses⟩
  rw [ahead_advance hCurrent,
    List.takeWhile_cons_of_pos (by simp [Lexeme.inWord, hWord]),
    String.empty_append] at hResult
  rw [ahead_advance hCurrent,
    List.takeWhile_cons_of_pos (by simp [Lexeme.inWord, hWord])]
    at hPasses
  rw [Lexeme.following_of_startsWord hWord]
  unfold readWord
  rw [hResult]
  exact reads_of_spells
    (.word hWord fun d hd =>
      List.all_eq_true.mp List.all_takeWhile d hd)
    hPasses

/- A slash is read, or the comment that two of them start. -/
theorem reads_slash
    (hCurrent : s.current = some '/') :
    Reads s ⟨'/', (Lexeme.following '/' s.advance.ahead).1⟩
      (if s.peek = some '/' then readComment s
        else readSingle .slash '/' s) := by
  rw [peek_eq_head?]
  split
  · rename_i hNext
    rcases List.head?_eq_some_iff.mp hNext with ⟨rest, hRest⟩
    rw [hRest]
    apply reads_readComment
    rw [ahead_advance hCurrent, hRest]
  · rename_i hNext
    rw [Lexeme.following_slash_of_ne
      fun d hd hSlash => hNext (hSlash ▸ hd)]
    exact reads_readSingle hCurrent .slash

/- A character is read alone, or with an equality sign. -/
theorem reads_paired
    {alone withEqual : Kind}
    (hCurrent : s.current = some c)
    (hPaired : Lexeme.paired? c = some (alone, withEqual)) :
    Reads s ⟨c, (Lexeme.following c s.advance.ahead).1⟩
      (if s.peek = some '=' then
        (.ok ⟨withEqual, (String.singleton c).push '=',
            .absent, s.line⟩,
          s.advance.advance)
      else readSingle alone c s) := by
  rw [Lexeme.following_of_paired? hPaired, peek_eq_head?]
  split
  · rename_i more hAhead
    have hNext : s.advance.current = some '=' := by
      rw [current_eq_head?, hAhead]
      rfl
    have hText :
        (String.singleton c).push '=' =
          Lexeme.text ⟨c, ['=']⟩ := by
      apply String.toList_inj.mp
      simp [Lexeme.text, Lexeme.chars]
    rw [if_pos (by rw [hAhead]; rfl), hText]
    exact reads_of_spells (.withEqual hPaired)
      ((passes_advance hNext).cons hCurrent)
  · rename_i hOther
    rw [if_neg]
    · exact reads_readSingle hCurrent (.alone hPaired)
    · intro hNext
      rcases List.head?_eq_some_iff.mp hNext with
        ⟨more, hMore⟩
      exact hOther more hMore

/-
  What the character under the cursor starts is read as the
  piece that it is cut off as.  The cases are those of the
  first character.
-/
theorem reads_nextToken
    (hCurrent : s.current = some c) :
    Reads s ⟨c, (Lexeme.following c s.advance.ahead).1⟩
      (nextToken c s) := by
  unfold nextToken
  split
  · rename_i hBlank
    rw [Lexeme.following_of_isBlank hBlank]
    exact reads_readSingle hCurrent (.blank hBlank)
  rename_i hBlank
  split
  · rename_i hSlash
    subst hSlash
    exact reads_slash hCurrent
  rename_i hSlash
  split
  · rename_i hSingle
    rw [Lexeme.following_of_single? hSingle]
    exact reads_readSingle hCurrent (.single hSingle)
  · rename_i hPaired
    exact reads_paired hCurrent hPaired
  · rename_i hSingle hPaired
    split
    · rename_i hQuote
      subst hQuote
      exact reads_readString hCurrent
    rename_i hQuote
    split
    · rename_i hDigit
      exact reads_readNumber hCurrent hDigit
    rename_i hDigit
    split
    · rename_i hWord
      exact reads_readWord hCurrent hWord
    · rename_i hWord
      have hPairs : ¬ Lexeme.pairsWithEqual c = true := by
        rw [Lexeme.pairsWithEqual_eq_isSome, hPaired]
        decide
      have hFollowing :
          Lexeme.following c s.advance.ahead =
            ([], s.advance.ahead) := by
        unfold Lexeme.following
        rw [if_neg hSlash, if_neg hPairs, if_neg hQuote,
          if_neg hDigit, if_neg hWord]
      rw [hFollowing]
      refine ⟨?_, passes_advance hCurrent⟩
      unfold Lexeme.read
      simp only [hBlank, hSlash, hSingle, hPaired, hQuote,
        hDigit, hWord, Bool.false_eq_true, if_false]

------------------------------------------------------------
-- Scanning a Text
------------------------------------------------------------

/- What is read is not empty, so less is ahead after it. -/
theorem length_ahead_nextToken_lt
    (hCurrent : s.current = some c) :
    (nextToken c s).2.ahead.length < s.ahead.length := by
  rw [(reads_nextToken hCurrent).2.ahead_eq,
    List.length_append]
  exact Nat.lt_add_of_pos_left (Nat.succ_pos _)

/-
  Read tokens and errors up to the end of the text, and the
  token that ends it.
-/
def scanTokens
    (s : Scanner) : List (Except LexError Token) :=
  match _h : s.current with
  | none => [.ok (Token.endOfInput s.line)]
  | some c =>
      (nextToken c s).1 :: scanTokens (nextToken c s).2
termination_by s.ahead.length
decreasing_by exact length_ahead_nextToken_lt _h

/-
  From anywhere in its text, a scanner reads what the pieces
  that are ahead are read as.
-/
theorem scanTokens_eq
    (s : Scanner) :
    s.scanTokens =
      Token.scanLexemes s.line (Lexeme.cut s.ahead) := by
  fun_induction scanTokens s with
  | case1 s hEnd =>
      rw [current_eq_head?, List.head?_eq_none_iff] at hEnd
      rw [hEnd, Lexeme.cut]
      rfl
  | case2 s c hCurrent ih =>
      rcases reads_nextToken hCurrent with ⟨hRead, hPasses⟩
      have hAhead :
          (nextToken c s).2.ahead =
            (Lexeme.following c s.advance.ahead).2 := by
        apply hPasses.ahead_of_append
        rw [ahead_advance hCurrent, Lexeme.chars,
          List.cons_append, Lexeme.following_append]
      rw [ih, hRead, hPasses.line_eq, hAhead,
        ahead_advance hCurrent, Lexeme.cut]
      rfl

end Scanner

/-
  A text is scanned character by character as it is scanned
  piece by piece.
-/
theorem Token.scanFrom_eq_scanTokens
    (line : Int)
    (source : String) :
    scanFrom line source =
      (Scanner.start line source.toList).scanTokens :=
  (Scanner.scanTokens_eq (.start line source.toList)).symm

end Lox
