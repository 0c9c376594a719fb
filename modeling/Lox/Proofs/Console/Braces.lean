import Lox.Console.Braces
import Lox.Proofs.Reading.Braces
import Lox.Proofs.Scanning.Pieces
import Mathlib.Algebra.Ring.Int.Defs

/-
  Counted braces are brace tokens.

  The braces that are counted on a line are the brace tokens
  of the line, taken as a text of its own.  The brace tokens
  of several lines are those of each line, as long as no line
  but the last leaves a text open.

  Key definitions include:
    * `Lexeme.brace`
    * `Braces.ofSource`
    * `Braces.ofLines`
    * `Braces.ClosesText`

  Key theorems include:
    * `Braces.ofSource_eq`
    * `Braces.balance_eq_ofSource`
    * `Braces.balance_eq_count_sub_count`
    * `Braces.ofSource_intercalate`
-/

namespace Lox

variable {cs rest more : List Char} {c : Char}
variable {w : Lexeme} {ws : List Lexeme}
variable {line : Int} {text : String}

------------------------------------------------------------
-- Definitions
------------------------------------------------------------

/- What a lexeme adds to the number of open braces. -/
def Lexeme.brace
    (w : Lexeme) : Int :=
  if w.first = '\x7b' then 1
  else if w.first = '\x7d' then -1
  else 0

namespace Braces

/- The opening brace tokens less the closing ones. -/
def ofTokens
    (ts : List Token) : Int :=
  Token.opens ts - Token.closes ts

/- The brace tokens of a source. -/
def ofSource
    (source : String) : Int :=
  ofTokens (Token.tokensOf (Token.scan source))

/- The brace tokens of lines, each of them a source. -/
def ofLines
    (lines : List String) : Int :=
  (lines.map ofSource).sum

/- Whether every text that a source opens is closed. -/
def ClosesText
    (source : String) : Prop :=
  ∀ e ∈ Token.errorsOf (Token.scan source),
    e.cause ≠ .unterminatedString

end Braces

------------------------------------------------------------
-- Braces of Lexemes
------------------------------------------------------------

namespace Braces

/- Tokens in a row have the braces of all of them. -/
theorem ofTokens_cons
    (t : Token)
    (ts : List Token) :
    ofTokens (t :: ts) = ofTokens [t] + ofTokens ts := by
  have hSplit := List.singleton_append (x := t) (l := ts)
  unfold ofTokens
  rw [← hSplit, Token.opens_append, Token.closes_append]
  omega

/- A token that is no brace does not count. -/
theorem ofTokens_of_ne
    {t : Token}
    (hOpening : t.kind ≠ .leftBrace)
    (hClosing : t.kind ≠ .rightBrace) :
    ofTokens [t] = 0 := by
  simp [ofTokens, Token.opens, Token.closes, hOpening,
    hClosing]

end Braces

/- A piece is spelled like a brace only if it is one. -/
theorem Lexeme.Spells.ne_brace
    {k : Kind}
    {l : Literal}
    (h : Spells (c :: more) k l)
    (hOpening : c ≠ '\x7b')
    (hClosing : c ≠ '\x7d') :
    k ≠ .leftBrace ∧ k ≠ .rightBrace := by
  cases h with
  | blank hBlank => exact ⟨nofun, nofun⟩
  | slash => exact ⟨nofun, nofun⟩
  | comment => exact ⟨nofun, nofun⟩
  | single hSingle =>
      unfold single? at hSingle
      split at hSingle <;> cases hSingle <;> simp_all
  | alone hPaired =>
      unfold paired? at hPaired
      split at hPaired <;> cases hPaired <;> simp_all
  | withEqual hPaired =>
      unfold paired? at hPaired
      split at hPaired <;> cases hPaired <;> simp_all
  | text hBody => exact ⟨nofun, nofun⟩
  | number hFirst hMore hNumber => exact ⟨nofun, nofun⟩
  | word hFirst hMore =>
      have hMem :=
        Kind.ofWord_mem (String.ofList (c :: more))
      exact ⟨fun hKind => absurd (hKind ▸ hMem) (by decide),
        fun hKind => absurd (hKind ▸ hMem) (by decide)⟩

/- What a piece is read as has its braces. -/
theorem Lexeme.brace_eq
    (hPiece : w.IsPiece)
    (line : Int) :
    Braces.ofTokens (Token.tokensOf [w.read line]) =
      w.brace := by
  rcases w with ⟨c, more⟩
  by_cases hOpening : c = '\x7b'
  · subst hOpening
    rfl
  by_cases hClosing : c = '\x7d'
  · subst hClosing
    rfl
  have hBrace : Lexeme.brace ⟨c, more⟩ = 0 := by
    simp [brace, hOpening, hClosing]
  rw [hBrace]
  cases hRead : Lexeme.read line ⟨c, more⟩ with
  | error e => rfl
  | ok t =>
      have hKind := (spells_of_read hPiece hRead).1.ne_brace
        hOpening hClosing
      exact Braces.ofTokens_of_ne hKind.1 hKind.2

/- A source has the braces of its lexemes. -/
theorem Braces.ofTokens_scanLexemes
    (hPieces : ∀ w ∈ ws, w.IsPiece)
    (line : Int) :
    ofTokens (Token.tokensOf (Token.scanLexemes line ws)) =
      (ws.map Lexeme.brace).sum := by
  induction ws generalizing line with
  | nil => rfl
  | cons w ws ih =>
      rw [List.forall_mem_cons] at hPieces
      have hFirst := Lexeme.brace_eq hPieces.1 line
      have hMore := ih hPieces.2
        (line + Token.newlines w.chars)
      rw [Token.scanLexemes, List.map_cons, List.sum_cons,
        ← hFirst, ← hMore]
      cases w.read line with
      | error e => exact (Int.zero_add _).symm
      | ok t => exact ofTokens_cons t _

/- A source has the braces of the lexemes it is cut into. -/
theorem Braces.ofSource_eq
    (source : String) :
    ofSource source =
      ((Lexeme.cut source.toList).map Lexeme.brace).sum :=
  ofTokens_scanLexemes
    (fun _ => Lexeme.isPiece_of_mem_cut) 1

------------------------------------------------------------
-- Braces of a Line
------------------------------------------------------------

namespace Braces

/- Characters that counting passes over. -/
def IsPlain
    (c : Char) : Prop :=
  c ≠ '/' ∧ c ≠ '"' ∧ c ≠ '\x7b' ∧ c ≠ '\x7d'

/- Plain characters do not count. -/
theorem balanceFrom_append_of_isPlain
    (h : ∀ d ∈ cs, IsPlain d)
    (rest : List Char) :
    balanceFrom false (cs ++ rest) =
      balanceFrom false rest := by
  induction cs with
  | nil => rfl
  | cons d cs ih =>
      rw [List.forall_mem_cons] at h
      rcases h.1 with ⟨hSlash, hQuote, hOpening, hClosing⟩
      simp [balanceFrom, hSlash, hQuote, hOpening, hClosing,
        ih h.2]

/- Within a text, nothing counts up to its end. -/
theorem balanceFrom_true_append
    (h : '"' ∉ cs)
    (rest : List Char) :
    balanceFrom true (cs ++ '"' :: rest) =
      balanceFrom false rest := by
  induction cs with
  | nil => simp [balanceFrom]
  | cons d cs ih =>
      rw [List.mem_cons, not_or] at h
      simp [balanceFrom, Ne.symm h.1, ih h.2]

/- Within a text that is not closed, nothing counts. -/
theorem balanceFrom_true_eq_zero
    (h : '"' ∉ cs) :
    balanceFrom true cs = 0 := by
  induction cs with
  | nil => rfl
  | cons d cs ih =>
      rw [List.mem_cons, not_or] at h
      simp [balanceFrom, Ne.symm h.1, ih h.2]

/- What goes on with a word is plain. -/
theorem isPlain_of_inWord
    (h : Lexeme.inWord c = true) :
    IsPlain c := by
  refine ⟨?_, ?_, ?_, ?_⟩
  all_goals
    rintro rfl
    revert h
    decide

/- What goes on with a number is plain. -/
theorem isPlain_of_inNumber
    (h : Lexeme.inNumber c = true) :
    IsPlain c := by
  refine ⟨?_, ?_, ?_, ?_⟩
  all_goals
    rintro rfl
    revert h
    decide

/- What a text takes up counts for nothing. -/
theorem balanceFrom_quote
    (rest : List Char) :
    balanceFrom false ('"' :: rest) =
      balanceFrom false (Lexeme.following '"' rest).2 := by
  have hQuote :
      balanceFrom false ('"' :: rest) =
        balanceFrom true rest := by
    simp [balanceFrom]
  rw [hQuote, Lexeme.following_quote]
  have hSplit := List.takeWhile_append_dropWhile
    (p := (· != '"')) (l := rest)
  have hBody : '"' ∉ rest.takeWhile (· != '"') := by
    intro hMem
    have := List.all_eq_true.mp List.all_takeWhile _ hMem
    simp at this
  cases hRest : rest.dropWhile (· != '"') with
  | nil =>
      rw [hRest, List.append_nil] at hSplit
      rw [hSplit] at hBody
      exact balanceFrom_true_eq_zero hBody
  | cons close after =>
      have hClose : close = '"' := by
        have := List.head?_dropWhile_not (· != '"') rest
        rw [hRest] at this
        simpa using this
      subst hClose
      rw [hRest] at hSplit
      rw [← hSplit]
      exact balanceFrom_true_append hBody after

/- After two slashes, nothing counts on a line. -/
theorem balanceFrom_slash
    (hLine : '\n' ∉ rest) :
    balanceFrom false ('/' :: rest) =
      balanceFrom false (Lexeme.following '/' rest).2 := by
  unfold Lexeme.following
  rw [if_pos rfl]
  split
  · rename_i after
    have hTest :
        ∀ d ∈ '/' :: after, (d != '\n') = true := by
      intro d hd
      have hNewline : d ≠ '\n' := by
        rintro rfl
        exact hLine hd
      simpa using hNewline
    rw [(Lexeme.span_self hTest).2]
    simp [balanceFrom]
  · rename_i hOther
    have hHead : rest.head? ≠ some '/' := by
      intro hSlash
      rcases List.head?_eq_some_iff.mp hSlash with
        ⟨after, hRest⟩
      exact hOther after hRest
    simp [balanceFrom, hHead]

/- What a lexeme that is no brace takes up is passed over. -/
theorem balanceFrom_following
    (hLine : '\n' ∉ rest)
    (hOpening : c ≠ '\x7b')
    (hClosing : c ≠ '\x7d') :
    balanceFrom false (c :: rest) =
      balanceFrom false (Lexeme.following c rest).2 := by
  by_cases hSlash : c = '/'
  · subst hSlash
    exact balanceFrom_slash hLine
  by_cases hQuote : c = '"'
  · subst hQuote
    exact balanceFrom_quote rest
  have hSelf : ∀ d ∈ [c], IsPlain d := by
    simp [IsPlain, hSlash, hQuote, hOpening, hClosing]
  have hFirst :
      balanceFrom false (c :: rest) =
        balanceFrom false rest :=
    balanceFrom_append_of_isPlain hSelf rest
  have hMore :
      ∀ d ∈ (Lexeme.following c rest).1, IsPlain d := by
    unfold Lexeme.following
    rw [if_neg hSlash]
    split
    · split
      · simp [IsPlain]
      · exact List.forall_mem_nil _
    split
    · intro d hd
      exact isPlain_of_inNumber
        (List.all_eq_true.mp List.all_takeWhile d hd)
    split
    · intro d hd
      exact isPlain_of_inWord
        (List.all_eq_true.mp List.all_takeWhile d hd)
    · exact List.forall_mem_nil _
  have hRest := balanceFrom_append_of_isPlain hMore
    (Lexeme.following c rest).2
  rw [Lexeme.following_append] at hRest
  rw [hFirst, hRest]

/- The braces of a line are those of its lexemes. -/
theorem balanceFrom_eq_sum
    (hLine : '\n' ∉ cs) :
    balanceFrom false cs =
      ((Lexeme.cut cs).map Lexeme.brace).sum := by
  fun_induction Lexeme.cut cs with
  | case1 => rfl
  | case2 c rest ih =>
      rw [List.mem_cons, not_or] at hLine
      have hSuffix : (Lexeme.following c rest).2 <:+ rest :=
        ⟨_, Lexeme.following_append c rest⟩
      have hMore := ih fun hMem =>
        hLine.2 (hSuffix.subset hMem)
      rw [List.map_cons, List.sum_cons, ← hMore]
      by_cases hOpening : c = '\x7b'
      · subst hOpening
        have hRest : (Lexeme.following '\x7b' rest).2 = rest :=
          rfl
        simp only [balanceFrom, Lexeme.brace, hRest]
        simp
        omega
      by_cases hClosing : c = '\x7d'
      · subst hClosing
        have hRest : (Lexeme.following '\x7d' rest).2 = rest :=
          rfl
        simp only [balanceFrom, Lexeme.brace, hRest]
        simp
        omega
      rw [balanceFrom_following hLine.2 hOpening hClosing]
      simp [Lexeme.brace, hOpening, hClosing]

/- The braces of a line are its brace tokens. -/
theorem balance_eq_ofSource
    (hLine : '\n' ∉ text.toList) :
    balance text = ofSource text := by
  rw [ofSource_eq]
  exact balanceFrom_eq_sum hLine

/-
  On a line, whatever its characters, the braces counted are
  the opening brace tokens that it is scanned as less the
  closing ones.
-/
theorem balance_eq_count_sub_count
    (hLine : '\n' ∉ text.toList) :
    balance text =
      (((Token.tokensOf (Token.scan text)).map
          Token.kind).count .leftBrace : Int) -
        ((Token.tokensOf (Token.scan text)).map
          Token.kind).count .rightBrace := by
  rw [balance_eq_ofSource hLine, List.count_eq_countP,
    List.count_eq_countP, List.countP_map, List.countP_map]
  rfl

/-
  Two slashes within a text start no comment, and neither the
  text, nor a number with two points, nor a text that is not
  closed hides the braces around it.
-/
theorem balance_eq_count_sub_count_quotedSlashes :
    '\n' ∉ "/\x7b\"\x7d//\"\x7d\x7b 1..\x7b \"\x7b".toList ∧
      balance "/\x7b\"\x7d//\"\x7d\x7b 1..\x7b \"\x7b" = 2 := by
  have hLine :
      '\n' ∉
        "/\x7b\"\x7d//\"\x7d\x7b 1..\x7b \"\x7b".toList := by
    decide +kernel
  refine ⟨hLine,
    (balance_eq_count_sub_count hLine).trans ?_⟩
  decide +kernel

------------------------------------------------------------
-- Braces of Several Lines
------------------------------------------------------------

/- Every lexeme is read on some line. -/
theorem exists_read_mem_scanLexemes
    (hw : w ∈ ws)
    (line : Int) :
    ∃ place, w.read place ∈ Token.scanLexemes line ws := by
  induction ws generalizing line with
  | nil => cases hw
  | cons v ws ih =>
      rcases List.mem_cons.mp hw with rfl | hTail
      · exact ⟨line, List.mem_cons_self⟩
      · rcases ih hTail (line + Token.newlines v.chars) with
          ⟨below, hBelow⟩
        exact ⟨below, List.mem_cons_of_mem _ hBelow⟩

/- A source that closes its texts leaves none open. -/
theorem ClosesText.quote_mem
    (h : ClosesText text)
    (hw : w ∈ Lexeme.cut text.toList)
    (hQuote : w.first = '"') :
    '"' ∈ w.more := by
  rcases w with ⟨c, more⟩
  subst hQuote
  rcases exists_read_mem_scanLexemes hw 1 with
    ⟨line, hRead⟩
  by_cases hLast : more.getLast? = some '"'
  · exact List.mem_of_getLast? hLast
  · have hError :
        Lexeme.read line ⟨'"', more⟩ =
          .error ⟨line, .unterminatedString⟩ := by
      simp [Lexeme.read, Lexeme.isBlank, Lexeme.single?,
        Lexeme.paired?]
    rw [hError] at hRead
    exact absurd rfl
      (h _ (List.mem_filterMap.mpr ⟨_, hRead, rfl⟩))

/- The braces of joined sources are those of both. -/
theorem ofSource_append_newline
    {first : String}
    (h : ClosesText first)
    (second : String) :
    ofSource (first ++ "\n" ++ second) =
      ofSource first + ofSource second := by
  rw [ofSource_eq, ofSource_eq, ofSource_eq,
    Token.toList_append_newline,
    Lexeme.cut_append_newline_of_closed
      fun _ hw hQuote => h.quote_mem hw hQuote,
    List.map_append, List.map_cons, List.sum_append,
    List.sum_cons]
  exact congrArg _ (Int.zero_add _)

/-
  The braces of joined lines are those of each line, if all
  lines but the last close their texts.
-/
theorem ofSource_intercalate
    {lines : List String}
    (h : ∀ line ∈ lines.dropLast, ClosesText line) :
    ofSource ("\n".intercalate lines) = ofLines lines := by
  induction lines with
  | nil =>
      rw [String.intercalate_nil, ofSource_eq,
        String.toList_empty, Lexeme.cut]
      rfl
  | cons line lines ih =>
      cases lines with
      | nil =>
          rw [String.intercalate_singleton]
          exact (Int.add_zero _).symm
      | cons next lines =>
          rw [List.dropLast_cons_cons, List.forall_mem_cons]
            at h
          rw [String.intercalate_cons_cons,
            ofSource_append_newline h.1, ih h.2]
          rfl

end Braces

end Lox
