import Lox.Proofs.Scanning.Scans
import Lox.Tree.Source

/-
  Scanning two texts that are joined by a line feed.

  A line feed ends every lexeme but a text that is not
  closed.  If the first text is scanned without an error, the
  lexemes of both texts are therefore those of the one, the
  line feed, and those of the other, which are read as they
  are alone but for their lines.

  Key definitions include:
    * `Token.lower`
    * `Token.readAll`
    * `Token.ofSource`
    * `Token.lineCount`

  Key theorems include:
    * `Lexeme.cut_append_newline_of_closed`
    * `Lexeme.cut_append_newline`
    * `Token.readAll_add`
    * `Token.ofSource_append_newline`
    * `Decl.ofSource_of_errorsOf`
-/

namespace Lox

variable {cs ds rest : List Char} {c d : Char}
variable {ws : List Lexeme} {line : Int}
variable {source first second : String}

------------------------------------------------------------
-- Tokens on Other Lines
------------------------------------------------------------

namespace Token

/- A token some lines further down. -/
def lower
    (n : Int)
    (t : Token) : Token :=
  { t with line := t.line + n }

/- An item of a scan some lines further down. -/
def lowerItem
    (n : Int) :
    Except LexError Token → Except LexError Token
  | .ok t => .ok (t.lower n)
  | .error e => .error { e with line := e.line + n }

/- Further down, a token is of the same kind. -/
@[simp]
theorem kind_lower
    (n : Int)
    (t : Token) :
    (t.lower n).kind = t.kind :=
  rfl

/- Further down, a token is written in the same way. -/
@[simp]
theorem lexeme_lower
    (n : Int)
    (t : Token) :
    (t.lower n).lexeme = t.lexeme :=
  rfl

/- Further down, the same tokens are significant. -/
theorem significant_map_lower
    (n : Int)
    (ts : List Token) :
    significant (ts.map (lower n)) =
      (significant ts).map (lower n) := by
  unfold significant
  rw [List.filter_map]
  rfl

/- Further down, the items hold the same tokens. -/
theorem tokensOf_map_lowerItem
    (n : Int)
    (items : List (Except LexError Token)) :
    tokensOf (items.map (lowerItem n)) =
      (tokensOf items).map (lower n) := by
  induction items with
  | nil => rfl
  | cons item items ih =>
      cases item with
      | error e => exact ih
      | ok t => exact congrArg (List.cons (t.lower n)) ih

/- Further down, the items hold the same errors. -/
theorem errorsOf_map_lowerItem
    (n : Int)
    (items : List (Except LexError Token)) :
    errorsOf (items.map (lowerItem n)) =
      (errorsOf items).map
        (fun e => { e with line := e.line + n }) := by
  induction items with
  | nil => rfl
  | cons item items ih =>
      cases item with
      | error e => exact congrArg (List.cons _) ih
      | ok t => exact ih

end Token

/- What a lexeme is does not depend on its line. -/
theorem Lexeme.read_add
    (w : Lexeme)
    (line n : Int) :
    w.read (line + n) = Token.lowerItem n (w.read line) := by
  unfold read
  dsimp only
  repeat' split
  all_goals rfl

------------------------------------------------------------
-- Lexemes in a Row
------------------------------------------------------------

namespace Token

/- Read lexemes of which the first starts on a line. -/
def readAll
    (line : Int) :
    List Lexeme → List (Except LexError Token)
  | [] => []
  | w :: ws =>
      w.read line :: readAll (line + newlines w.chars) ws

/- The line after a lexeme and others in a row. -/
theorem add_newlines_cons
    (line : Int)
    (w : Lexeme)
    (ws : List Lexeme) :
    line + newlines w.chars +
        newlines (ws.flatMap Lexeme.chars) =
      line + newlines ((w :: ws).flatMap Lexeme.chars) := by
  unfold newlines
  rw [List.flatMap_cons, List.count_append]
  omega

/- Lexemes are read one after the other. -/
theorem readAll_append
    (line : Int)
    (ws vs : List Lexeme) :
    readAll line (ws ++ vs) =
      readAll line ws ++
        readAll
          (line + newlines (ws.flatMap Lexeme.chars)) vs := by
  induction ws generalizing line with
  | nil => simp [readAll, newlines]
  | cons w ws ih =>
      rw [List.cons_append, readAll, readAll, ih,
        add_newlines_cons]
      rfl

/- What lexemes are does not depend on their lines. -/
theorem readAll_add
    (line n : Int)
    (ws : List Lexeme) :
    readAll (line + n) ws =
      (readAll line ws).map (lowerItem n) := by
  induction ws generalizing line with
  | nil => rfl
  | cons w ws ih =>
      have hLine :
          line + n + newlines w.chars =
            line + newlines w.chars + n := by
        omega
      rw [readAll, readAll, List.map_cons, w.read_add, hLine,
        ih]

/- A scan consists of what is read, and of the end. -/
theorem scanLexemes_eq
    (line : Int)
    (ws : List Lexeme) :
    scanLexemes line ws =
      readAll line ws ++
        [.ok (endOfInput
          (line + newlines (ws.flatMap Lexeme.chars)))] := by
  induction ws generalizing line with
  | nil => simp [scanLexemes, readAll, newlines]
  | cons w ws ih =>
      rw [scanLexemes, readAll, ih, add_newlines_cons,
        List.cons_append]

/- What is read before the end of a source. -/
def beforeEnd
    (source : String) : List (Except LexError Token) :=
  readAll 1 (Lexeme.cut source.toList)

/- A source is scanned as what is before its end, and that. -/
theorem scan_eq
    (source : String) :
    scan source =
      beforeEnd source ++
        [.ok (endOfInput (1 + newlines source.toList))] := by
  unfold scan scanFrom
  rw [scanLexemes_eq, Lexeme.flatMap_chars_cut]
  rfl

/- The errors of a source come before its end. -/
theorem errorsOf_scan
    (source : String) :
    errorsOf (scan source) = errorsOf (beforeEnd source) := by
  rw [scan_eq]
  unfold errorsOf
  rw [List.filterMap_append]
  exact List.append_nil _

/- What is read off pieces is not the end. -/
theorem ne_endOfInput_of_mem_readAll
    {t : Token}
    (hPieces : ∀ w ∈ ws, w.IsPiece)
    (h : .ok t ∈ readAll line ws) :
    t.kind ≠ .endOfInput := by
  induction ws generalizing line with
  | nil => cases h
  | cons w ws ih =>
      rw [List.forall_mem_cons] at hPieces
      rcases List.mem_cons.mp h with hHead | hTail
      · exact (Lexeme.spells_of_read hPieces.1
          hHead.symm).1.ne_endOfInput
      · exact ih hPieces.2 hTail

/- What is read before the end is not the end. -/
theorem ne_endOfInput_of_mem_beforeEnd
    {t : Token}
    (h : t ∈ tokensOf (beforeEnd source)) :
    t.kind ≠ .endOfInput := by
  rcases List.mem_filterMap.mp h with ⟨item, hItem, hOk⟩
  cases item with
  | error e => cases hOk
  | ok u =>
      cases hOk
      exact ne_endOfInput_of_mem_readAll
        (fun w hw => Lexeme.isPiece_of_mem_cut hw) hItem

end Token

------------------------------------------------------------
-- Programs of Sources
------------------------------------------------------------

/- The tokens of a source that its program is read from. -/
def Token.ofSource
    (source : String) : List Token :=
  Decl.body (significant (tokensOf (scan source)))

/- They are the significant ones before the end. -/
theorem Token.ofSource_eq
    (source : String) :
    ofSource source =
      significant (tokensOf (beforeEnd source)) := by
  have hSplit :
      tokensOf (scan source) =
        tokensOf (beforeEnd source) ++
          [endOfInput (1 + newlines source.toList)] := by
    rw [scan_eq]
    exact List.filterMap_append
  unfold ofSource
  rw [hSplit]
  exact Decl.body_append_endOfInput
    (fun _ => ne_endOfInput_of_mem_beforeEnd) _

/- A source without lexical errors is read as a program. -/
theorem Decl.ofSource_of_errorsOf
    (h : Token.errorsOf (Token.scan source) = [])
    (limits : Limits) :
    Decl.ofSource limits source =
      .ok (parseAll
        ⟨limits, 1 + Token.newlines source.toList⟩
        (Token.ofSource source)) := by
  have hEnd :
      endLine
          (Token.significant
            (Token.tokensOf (Token.scan source))) =
        1 + Token.newlines source.toList := by
    have hOthers :
        ∀ t ∈ Token.significant
            (Token.tokensOf (Token.beforeEnd source)),
          ¬ (t.kind == Kind.endOfInput) = true := by
      intro t ht
      simpa using Token.ne_endOfInput_of_mem_beforeEnd
        (List.mem_filter.mp ht).1
    unfold endLine
    rw [Token.scan_eq]
    unfold Token.tokensOf Token.significant at hOthers ⊢
    rw [List.filterMap_append, List.filter_append,
      List.find?_append, List.find?_eq_none.mpr hOthers]
    rfl
  unfold ofSource
  simp only [h]
  unfold programWithin
  rw [hEnd]
  rfl

------------------------------------------------------------
-- Line Feeds
------------------------------------------------------------

namespace Lexeme

/- Taking and dropping stop at what fails the test. -/
theorem span_append_cons
    {p : Char → Bool}
    (hStop : p d = false)
    (cs ds : List Char) :
    (cs ++ d :: ds).takeWhile p = cs.takeWhile p ∧
      (cs ++ d :: ds).dropWhile p =
        cs.dropWhile p ++ d :: ds := by
  induction cs with
  | nil => simp [hStop]
  | cons c cs ih =>
      cases hTest : p c with
      | false => simp [hTest]
      | true => simp [hTest, ih]

/- They stop before what comes after such a character. -/
theorem span_append_of_mem
    {p : Char → Bool}
    (hMem : d ∈ cs)
    (hStop : p d = false)
    (ds : List Char) :
    (cs ++ ds).takeWhile p = cs.takeWhile p ∧
      (cs ++ ds).dropWhile p = cs.dropWhile p ++ ds := by
  induction cs with
  | nil => cases hMem
  | cons c cs ih =>
      cases hTest : p c with
      | false => simp [hTest]
      | true =>
          rcases List.mem_cons.mp hMem with rfl | hTail
          · rw [hStop] at hTest
            cases hTest
          · simp [hTest, ih hTail]

/-
  A line feed takes nothing off what belongs to a piece, and
  adds nothing to it.
-/
theorem following_append_newline
    (hClosed : c = '"' → '"' ∈ rest)
    (ds : List Char) :
    following c (rest ++ '\n' :: ds) =
      ((following c rest).1,
        (following c rest).2 ++ '\n' :: ds) := by
  unfold following
  split
  · rcases span_append_cons (d := '\n') (p := (· != '\n'))
        (by decide) rest ds with
      ⟨hTake, hDrop⟩
    rw [hTake, hDrop]
    cases rest with
    | nil => rfl
    | cons e rest =>
        by_cases hSlash : e = '/'
        · subst hSlash
          rfl
        · simp [hSlash]
  split
  · cases rest with
    | nil => rfl
    | cons e rest =>
        by_cases hEqual : e = '='
        · subst hEqual
          rfl
        · simp [hEqual]
  split
  · rename_i hQuote
    rcases span_append_of_mem (p := (· != '"'))
        (hClosed hQuote) (by decide) ('\n' :: ds) with
      ⟨hTake, hDrop⟩
    dsimp only
    rw [hTake, hDrop]
    cases hRest : rest.dropWhile (· != '"') with
    | nil =>
        have hSplit := List.takeWhile_append_dropWhile
          (p := (· != '"')) (l := rest)
        rw [hRest, List.append_nil] at hSplit
        have hMem := hClosed hQuote
        rw [← hSplit] at hMem
        have := List.all_eq_true.mp List.all_takeWhile _ hMem
        simp at this
    | cons close after => rfl
  split
  · rcases span_append_cons (d := '\n') (p := inNumber)
        (by decide) rest ds with
      ⟨hTake, hDrop⟩
    rw [hTake, hDrop]
  split
  · rcases span_append_cons (d := '\n') (p := inWord)
        (by decide) rest ds with
      ⟨hTake, hDrop⟩
    rw [hTake, hDrop]
  · rfl

/- What a quotation mark opens is closed by another one. -/
theorem Spells.quote_mem
    {more : List Char}
    {k : Kind}
    {l : Literal}
    (h : Spells ('"' :: more) k l) :
    '"' ∈ more := by
  cases h with
  | blank hBlank => cases hBlank
  | single hSingle => cases hSingle
  | alone hPaired => cases hPaired
  | withEqual hPaired => cases hPaired
  | text hBody => simp
  | number hFirst hMore hNumber => cases hFirst
  | word hFirst hMore => cases hFirst

/-
  A line feed comes between lexemes, unless it is part of a
  text that is not closed before it.
-/
theorem cut_append_newline_of_closed
    (hClosed :
      ∀ w ∈ cut cs, w.first = '"' → '"' ∈ w.more)
    (ds : List Char) :
    cut (cs ++ '\n' :: ds) =
      cut cs ++ ⟨'\n', []⟩ :: cut ds := by
  fun_induction cut cs with
  | case1 =>
      rw [List.nil_append, cut,
        following_of_isBlank (by rfl) ds]
      rfl
  | case2 c rest ih =>
      rw [List.forall_mem_cons] at hClosed
      have hPrefix : (following c rest).1 <+: rest :=
        ⟨_, following_append c rest⟩
      have hFirst : c = '"' → '"' ∈ rest :=
        fun hQuote => hPrefix.subset (hClosed.1 hQuote)
      rw [List.cons_append, cut,
        following_append_newline hFirst, ih hClosed.2]
      rfl

/- A line feed comes between lexemes that can be read. -/
theorem cut_append_newline
    (hRead : ∀ w ∈ cut cs, ∃ line t, w.read line = .ok t)
    (ds : List Char) :
    cut (cs ++ '\n' :: ds) =
      cut cs ++ ⟨'\n', []⟩ :: cut ds := by
  apply cut_append_newline_of_closed
  rintro ⟨c, more⟩ hw hQuote
  rcases hRead _ hw with ⟨line, t, hFirst⟩
  have hSpells :=
    (spells_of_read (isPiece_of_mem_cut hw) hFirst).1
  rw [show c = '"' from hQuote] at hSpells
  exact hSpells.quote_mem

end Lexeme

------------------------------------------------------------
-- Joined Sources
------------------------------------------------------------

namespace Token

/- Without errors, every lexeme is a token. -/
theorem exists_read_of_errorsOf
    (h : errorsOf (readAll line ws) = []) :
    ∀ w ∈ ws, ∃ line t, w.read line = .ok t := by
  induction ws generalizing line with
  | nil => exact List.forall_mem_nil _
  | cons w ws ih =>
      rw [readAll] at h
      cases hRead : w.read line with
      | error e =>
          rw [hRead] at h
          cases h
      | ok t =>
          rw [hRead] at h
          rw [List.forall_mem_cons]
          exact ⟨⟨line, t, hRead⟩, ih h⟩

/- How many lines a source takes up. -/
def lineCount
    (source : String) : Int :=
  newlines source.toList + 1

/- The characters of joined sources. -/
theorem toList_append_newline
    (first second : String) :
    (first ++ "\n" ++ second).toList =
      first.toList ++ '\n' :: second.toList := by
  rw [String.toList_append, String.toList_append,
    List.append_assoc]
  rfl

/- The line feeds of joined sources. -/
theorem newlines_append_newline
    (first second : String) :
    (newlines (first ++ "\n" ++ second).toList : Int) =
      newlines second.toList + lineCount first := by
  unfold newlines lineCount
  rw [toList_append_newline, List.count_append,
    List.count_cons_self]
  unfold newlines
  omega

/-
  Joined sources are scanned as the first one, a blank, and
  the second one further down.
-/
theorem beforeEnd_append_newline
    (h : errorsOf (scan first) = [])
    (second : String) :
    beforeEnd (first ++ "\n" ++ second) =
      beforeEnd first ++
        .ok ⟨.blank, "\n", .absent,
            1 + newlines first.toList⟩ ::
          (beforeEnd second).map
            (lowerItem (lineCount first)) := by
  rw [errorsOf_scan] at h
  have hCut := Lexeme.cut_append_newline
    (exists_read_of_errorsOf h) second.toList
  have hLine :
      (1 : Int) + newlines first.toList + newlines ['\n'] =
        1 + lineCount first := by
    have hOne : newlines ['\n'] = 1 := rfl
    rw [hOne]
    unfold lineCount
    omega
  unfold beforeEnd
  rw [toList_append_newline, hCut, readAll_append,
    Lexeme.flatMap_chars_cut, readAll, Lexeme.chars, hLine,
    readAll_add]
  rfl

/- Joined sources have the errors of both. -/
theorem errorsOf_scan_append_newline
    (hFirst : errorsOf (scan first) = [])
    (hSecond : errorsOf (scan second) = []) :
    errorsOf (scan (first ++ "\n" ++ second)) = [] := by
  have hSplit := beforeEnd_append_newline hFirst second
  rw [errorsOf_scan] at hFirst hSecond ⊢
  have hLower :=
    errorsOf_map_lowerItem (lineCount first)
      (beforeEnd second)
  rw [hSecond, List.map_nil] at hLower
  rw [hSplit]
  unfold errorsOf at hFirst hLower ⊢
  rw [List.filterMap_append, hFirst]
  exact hLower

/- Joined sources have the significant tokens of both. -/
theorem ofSource_append_newline
    (h : errorsOf (scan first) = [])
    (second : String) :
    ofSource (first ++ "\n" ++ second) =
      ofSource first ++
        (ofSource second).map (lower (lineCount first)) := by
  have hLower :=
    tokensOf_map_lowerItem (lineCount first)
      (beforeEnd second)
  have hSignificant :=
    significant_map_lower (lineCount first)
      (tokensOf (beforeEnd second))
  rw [ofSource_eq, ofSource_eq, ofSource_eq,
    beforeEnd_append_newline h, ← hSignificant, ← hLower]
  unfold tokensOf significant
  rw [List.filterMap_append, List.filter_append]
  rfl

end Token

end Lox
