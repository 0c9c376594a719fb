import Lox.Token.Scan

/-
  How tokens are spelled.

  A token is spelled by the characters of its lexeme, and
  their kind and literal follow from these characters alone.
  What is scanned off a text is spelled that way, and spelled
  characters are scanned as their token if what stands after
  them does not go on with them.

  Key definitions include:
    * `Lexeme.Spells`
    * `Lexeme.IsPiece`
    * `Lexeme.Delimits`

  Key theorems include:
    * `Lexeme.spells_of_read`
    * `Lexeme.Spells.read`
    * `Lexeme.Spells.parts_of_delimits`
-/

namespace Lox

namespace Lexeme

variable {c d : Char} {cs more rest : List Char}
variable {k : Kind} {l : Literal}

------------------------------------------------------------
-- Spellings
------------------------------------------------------------

/-
  Characters that spell a token of a kind with a literal.
  Only the closed form of a text, and only numbers that are
  in range, spell a token.
-/
inductive Spells :
    List Char → Kind → Literal → Prop where
  | blank
      {c : Char}
      (hBlank : isBlank c = true) :
      Spells [c] .blank .absent
  | slash :
      Spells ['/'] .slash .absent
  | comment
      {d : Char} {more : List Char} :
      Spells ('/' :: d :: more) .comment .absent
  | single
      {c : Char} {k : Kind}
      (hSingle : single? c = some k) :
      Spells [c] k .absent
  | alone
      {c : Char} {k withEqual : Kind}
      (hPaired : paired? c = some (k, withEqual)) :
      Spells [c] k .absent
  | withEqual
      {c : Char} {alone k : Kind}
      (hPaired : paired? c = some (alone, k)) :
      Spells [c, '='] k .absent
  | text
      {body : List Char}
      (hBody : ∀ d ∈ body, d ≠ '"') :
      Spells ('"' :: (body ++ ['"'])) .string
        (.text (String.ofList body))
  | number
      {c : Char} {more : List Char} {n : Literal}
      (hFirst : c.isDigit = true)
      (hMore : ∀ d ∈ more, inNumber d = true)
      (hNumber : number? (c :: more) = some n) :
      Spells (c :: more) .number n
  | word
      {c : Char} {more : List Char}
      (hFirst : startsWord c = true)
      (hMore : ∀ d ∈ more, inWord d = true) :
      Spells (c :: more) (Kind.ofWord (String.ofList (c :: more)))
        (wordLiteral (Kind.ofWord (String.ofList (c :: more))))

/- A word spells the kind that it has. -/
theorem spells_word
    (hWord : Kind.ofWord (String.ofList (c :: more)) = k)
    (hFirst : startsWord c = true)
    (hMore : more.all inWord = true) :
    Spells (c :: more) k (wordLiteral k) := by
  rw [← hWord]
  exact .word hFirst (List.all_eq_true.mp hMore)

------------------------------------------------------------
-- Classes of Characters
------------------------------------------------------------

/- A character that cannot be continued stands alone. -/
theorem following_of_single?
    (h : single? c = some k)
    (rest : List Char) :
    following c rest = ([], rest) := by
  unfold single? at h
  split at h
  all_goals first | rfl | cases h

/- A blank stands alone. -/
theorem following_of_isBlank
    (h : isBlank c = true)
    (rest : List Char) :
    following c rest = ([], rest) := by
  simp only [isBlank, Bool.or_eq_true, beq_iff_eq] at h
  rcases h with ((rfl | rfl) | rfl) | rfl
  all_goals rfl

/- The characters that may be paired have a kind alone. -/
theorem pairsWithEqual_eq_isSome
    (c : Char) :
    pairsWithEqual c = (paired? c).isSome := by
  unfold paired?
  split
  all_goals first | rfl | simp_all [pairsWithEqual]

/- A character that may be paired takes an equality sign. -/
theorem following_of_paired?
    {pair : Kind × Kind}
    (h : paired? c = some pair)
    (rest : List Char) :
    following c rest =
      match rest with
      | '=' :: after => (['='], after)
      | _ => ([], rest) := by
  unfold paired? at h
  split at h
  all_goals first | rfl | cases h

/- A character that cannot be continued is no blank. -/
theorem not_blank_of_single?
    (h : single? c = some k) :
    isBlank c = false ∧ c ≠ '/' := by
  unfold single? at h
  split at h
  all_goals first | exact ⟨rfl, by decide⟩ | cases h

/- A character that may be paired is no blank. -/
theorem not_blank_of_paired?
    {pair : Kind × Kind}
    (h : paired? c = some pair) :
    isBlank c = false ∧ c ≠ '/' ∧ single? c = none := by
  unfold paired? at h
  split at h
  all_goals first | exact ⟨rfl, by decide, rfl⟩ | cases h

/- Characters of words have no meaning of their own. -/
theorem not_special_of_inWord
    (h : inWord c = true) :
    isBlank c = false ∧ c ≠ '/' ∧ single? c = none ∧
      paired? c = none ∧ c ≠ '"' := by
  refine ⟨?_, ?_, ?_, ?_, ?_⟩
  · cases hBlank : isBlank c with
    | false => rfl
    | true =>
        simp only [isBlank, Bool.or_eq_true,
          beq_iff_eq] at hBlank
        rcases hBlank with ((rfl | rfl) | rfl) | rfl
        all_goals cases h
  · rintro rfl
    cases h
  · unfold single?
    split
    all_goals first | rfl | cases h
  · unfold paired?
    split
    all_goals first | rfl | cases h
  · rintro rfl
    cases h

/- A digit does not start a word. -/
theorem startsWord_of_isDigit
    (h : c.isDigit = true) :
    startsWord c = false := by
  cases hWord : startsWord c with
  | false => rfl
  | true =>
      simp only [Char.isDigit, ge_iff_le, Bool.and_eq_true,
        decide_eq_true_eq, UInt32.le_iff_toNat_le] at h
      change (decide ('A'.val ≤ c.val ∧ c.val ≤ 'Z'.val) ||
        ('a'.val ≤ c.val && c.val ≤ 'z'.val) ||
        c == '_') = true at hWord
      simp only [Bool.or_eq_true, Bool.and_eq_true,
        decide_eq_true_eq, beq_iff_eq,
        UInt32.le_iff_toNat_le] at hWord
      have hUpper : '9'.val.toNat < 'A'.val.toNat := by
        decide
      have hLower : '9'.val.toNat < 'a'.val.toNat := by
        decide
      have hUnderscore : '9'.val.toNat < '_'.val.toNat := by
        decide
      rcases hWord with (hWord | hWord) | rfl
      · omega
      · omega
      · omega

/- A quotation mark takes all up to the next one. -/
theorem following_quote
    (rest : List Char) :
    following '"' rest =
      match rest.dropWhile (· != '"') with
      | [] => (rest.takeWhile (· != '"'), [])
      | close :: after =>
          (rest.takeWhile (· != '"') ++ [close], after) :=
  rfl

/- A digit takes what goes on with a number. -/
theorem following_of_isDigit
    (h : c.isDigit = true)
    (rest : List Char) :
    following c rest =
      (rest.takeWhile inNumber, rest.dropWhile inNumber) := by
  have hWord : inWord c = true := by
    simp [inWord, h]
  rcases not_special_of_inWord hWord with
    ⟨-, hSlash, -, hPaired, hQuote⟩
  have hPairs : ¬ pairsWithEqual c = true := by
    simp [pairsWithEqual_eq_isSome, hPaired]
  unfold following
  rw [if_neg hSlash, if_neg hPairs, if_neg hQuote, if_pos h]

/- The start of a word takes what goes on with a word. -/
theorem following_of_startsWord
    (h : startsWord c = true)
    (rest : List Char) :
    following c rest =
      (rest.takeWhile inWord, rest.dropWhile inWord) := by
  have hWord : inWord c = true := by
    simp [inWord, h]
  rcases not_special_of_inWord hWord with
    ⟨-, hSlash, -, hPaired, hQuote⟩
  have hPairs : ¬ pairsWithEqual c = true := by
    simp [pairsWithEqual_eq_isSome, hPaired]
  have hDigit : ¬ c.isDigit = true := by
    intro hDigit
    rw [startsWord_of_isDigit hDigit] at h
    cases h
  unfold following
  rw [if_neg hSlash, if_neg hPairs, if_neg hQuote,
    if_neg hDigit, if_pos h]

------------------------------------------------------------
-- Reading Lexemes
------------------------------------------------------------

variable {w : Lexeme} {t : Token} {line : Int}

/-
  Pieces: lexemes that take all that belongs to them, out of
  some text.
-/
def IsPiece
    (w : Lexeme) : Prop :=
  ∃ rest, (following w.first rest).1 = w.more

/- A text is cut into pieces. -/
theorem isPiece_of_mem_cut
    (h : w ∈ cut cs) :
    w.IsPiece := by
  induction cs using cut.induct with
  | case1 =>
      rw [cut] at h
      cases h
  | case2 c rest ih =>
      rw [cut] at h
      rcases List.mem_cons.mp h with rfl | hTail
      · exact ⟨rest, rfl⟩
      · exact ih hTail

/- A piece that starts with a quotation mark, and is closed. -/
theorem exists_body_of_isPiece
    (h : IsPiece ⟨'"', more⟩)
    (hLast : more.getLast? = some '"') :
    ∃ body, more = body ++ ['"'] ∧ ∀ d ∈ body, d ≠ '"' := by
  rcases h with ⟨rest, hMore⟩
  rw [following_quote] at hMore
  have hBody : ∀ d ∈ rest.takeWhile (· != '"'), d ≠ '"' := by
    intro d hd
    simpa using
      List.all_eq_true.mp List.all_takeWhile d hd
  split at hMore
  · dsimp only at hMore
    rw [← hMore] at hLast
    exact absurd rfl
      (hBody '"' (List.mem_of_getLast? hLast))
  · dsimp only at hMore
    rename_i close after _
    rw [← hMore, List.getLast?_concat] at hLast
    cases hLast
    exact ⟨_, hMore.symm, hBody⟩

/- What is read off a piece is spelled by its characters. -/
theorem spells_of_read
    (hPiece : w.IsPiece)
    (h : w.read line = .ok t) :
    Spells w.chars t.kind t.literal ∧
      t.lexeme = w.text ∧ t.line = line := by
  rcases w with ⟨c, more⟩
  unfold read at h
  dsimp only at h
  split at h
  · rename_i hBlank
    rcases hPiece with ⟨rest, hMore⟩
    rw [following_of_isBlank hBlank] at hMore
    cases hMore
    cases h
    exact ⟨.blank hBlank, rfl, rfl⟩
  · split at h
    · rename_i hSlash
      subst hSlash
      cases h
      cases more with
      | nil => exact ⟨.slash, rfl, rfl⟩
      | cons d more => exact ⟨.comment, rfl, rfl⟩
    · split at h
      · rename_i hSingle
        rcases hPiece with ⟨rest, hMore⟩
        rw [following_of_single? hSingle] at hMore
        cases hMore
        cases h
        exact ⟨.single hSingle, rfl, rfl⟩
      · rename_i hPaired
        rcases hPiece with ⟨rest, hMore⟩
        rw [following_of_paired? hPaired] at hMore
        split at hMore
        · cases hMore
          cases h
          exact ⟨.withEqual hPaired, rfl, rfl⟩
        · cases hMore
          cases h
          exact ⟨.alone hPaired, rfl, rfl⟩
      · split at h
        · rename_i hQuote
          subst hQuote
          split at h
          · rename_i hLast
            rcases exists_body_of_isPiece hPiece hLast with
              ⟨body, hMore, hBody⟩
            subst hMore
            cases h
            rw [List.dropLast_concat]
            exact ⟨.text hBody, rfl, rfl⟩
          · cases h
        · split at h
          · rename_i hDigit
            rcases hPiece with ⟨rest, hMore⟩
            rw [following_of_isDigit hDigit] at hMore
            split at h
            · rename_i hNumber
              cases h
              refine ⟨.number hDigit ?_ hNumber, rfl, rfl⟩
              intro d hd
              rw [← hMore] at hd
              exact List.all_eq_true.mp
                List.all_takeWhile d hd
            · cases h
          · split at h
            · rename_i hWord
              rcases hPiece with ⟨rest, hMore⟩
              rw [following_of_startsWord hWord] at hMore
              cases h
              refine ⟨.word hWord ?_, rfl, rfl⟩
              intro d hd
              rw [← hMore] at hd
              exact List.all_eq_true.mp
                List.all_takeWhile d hd
            · cases h

/- Spelled characters are read as their token. -/
theorem Spells.read
    (h : Spells cs k l)
    (hChars : cs = w.chars)
    (line : Int) :
    w.read line = .ok ⟨k, String.ofList cs, l, line⟩ := by
  rcases w with ⟨c, more⟩
  unfold Lexeme.read
  cases h with
  | blank hBlank =>
      cases hChars
      rw [if_pos hBlank]
      rfl
  | slash =>
      cases hChars
      rfl
  | comment =>
      cases hChars
      rfl
  | single hSingle =>
      cases hChars
      rcases not_blank_of_single? hSingle with
        ⟨hBlank, hSlash⟩
      simp only [hBlank, hSlash, hSingle, Bool.false_eq_true,
        if_false]
      rfl
  | alone hPaired =>
      cases hChars
      rcases not_blank_of_paired? hPaired with
        ⟨hBlank, hSlash, hSingle⟩
      simp only [hBlank, hSlash, hSingle, hPaired,
        Bool.false_eq_true, if_false]
      rfl
  | withEqual hPaired =>
      cases hChars
      rcases not_blank_of_paired? hPaired with
        ⟨hBlank, hSlash, hSingle⟩
      simp only [hBlank, hSlash, hSingle, hPaired,
        Bool.false_eq_true, if_false]
      rfl
  | text hBody =>
      rcases List.cons.inj hChars with ⟨rfl, rfl⟩
      have hBlank : isBlank '"' = false := rfl
      have hSlash : ¬ '"' = '/' := by decide
      have hSingle : single? '"' = none := rfl
      have hPaired : paired? '"' = none := rfl
      simp only [hBlank, hSlash, hSingle, hPaired,
        Bool.false_eq_true, if_false, if_true,
        List.getLast?_concat, List.dropLast_concat]
      rfl
  | number hFirst hMore hNumber =>
      cases hChars
      have hWord : inWord c = true := by
        simp [inWord, hFirst]
      rcases not_special_of_inWord hWord with
        ⟨hBlank, hSlash, hSingle, hPaired, hQuote⟩
      simp only [hBlank, hSlash, hSingle, hPaired, hQuote,
        hFirst, hNumber, chars, Bool.false_eq_true, if_false,
        if_true]
      rfl
  | word hFirst hMore =>
      cases hChars
      have hWord : inWord c = true := by
        simp [inWord, hFirst]
      rcases not_special_of_inWord hWord with
        ⟨hBlank, hSlash, hSingle, hPaired, hQuote⟩
      have hDigit : ¬ c.isDigit = true := by
        intro hDigit
        rw [startsWord_of_isDigit hDigit] at hFirst
        cases hFirst
      simp only [hBlank, hSlash, hSingle, hPaired, hQuote,
        hDigit, hFirst, Bool.false_eq_true, if_false, if_true]
      rfl

/- A digit starts a number, or an error. -/
theorem read_of_isDigit
    (h : w.first.isDigit = true)
    (line : Int) :
    w.read line =
      match number? w.chars with
      | some l => .ok ⟨.number, w.text, l, line⟩
      | none => .error ⟨line, .invalidNumber w.text⟩ := by
  have hWord : inWord w.first = true := by
    simp [inWord, h]
  rcases not_special_of_inWord hWord with
    ⟨hBlank, hSlash, hSingle, hPaired, hQuote⟩
  unfold read
  cases number? w.chars with
  | none =>
      simp only [hBlank, hSlash, hSingle, hPaired, hQuote, h,
        Bool.false_eq_true, if_false, if_true]
  | some l =>
      simp only [hBlank, hSlash, hSingle, hPaired, hQuote, h,
        Bool.false_eq_true, if_false, if_true]

/- A text that is not closed is an error. -/
theorem read_quote_of_notMem
    (h : '"' ∉ more)
    (line : Int) :
    Lexeme.read line ⟨'"', more⟩ =
      .error ⟨line, .unterminatedString⟩ := by
  have hBlank : isBlank '"' = false := rfl
  have hSlash : ¬ '"' = '/' := by decide
  have hSingle : single? '"' = none := rfl
  have hPaired : paired? '"' = none := rfl
  unfold Lexeme.read
  simp only [hBlank, hSlash, hSingle, hPaired,
    Bool.false_eq_true, if_false, if_true]
  cases hLast : more.getLast? with
  | none => rfl
  | some d =>
      have hOther : d ≠ '"' := by
        rintro rfl
        exact h (List.mem_of_getLast? hLast)
      simp [hOther]

------------------------------------------------------------
-- Cutting Off a Lexeme
------------------------------------------------------------

/-
  Characters that go on with no lexeme that stands before
  them, comments aside.
-/
def isDelimiter
    (c : Char) : Bool :=
  !(c == '=' || c == '/' || inNumber c || inWord c)

/- Texts that do not go on with what stands before them. -/
def Delimits
    (rest : List Char) : Prop :=
  ∀ c ∈ rest.head?, isDelimiter c = true

/- Characters from which a text is cut off. -/
def Parts
    (cs rest : List Char) : Prop :=
  ∀ c more, cs = c :: more →
    following c (more ++ rest) = (more, rest)

/- Parted characters are the next lexeme. -/
theorem cut_append_of_parts
    (hParts : Parts w.chars rest) :
    cut (w.chars ++ rest) = w :: cut rest := by
  rcases w with ⟨c, more⟩
  have hFollowing := hParts c more rfl
  change cut (c :: (more ++ rest)) = _
  rw [cut, hFollowing]

/- Taking while a test holds stops at a delimiter. -/
theorem span_append
    {p : Char → Bool}
    (hMore : ∀ d ∈ more, p d = true)
    (hRest : ∀ d ∈ rest.head?, p d = false) :
    (more ++ rest).takeWhile p = more ∧
      (more ++ rest).dropWhile p = rest := by
  rw [List.takeWhile_append_of_pos hMore,
    List.dropWhile_append_of_pos hMore]
  cases rest with
  | nil => simp
  | cons d rest =>
      have hd := hRest d rfl
      simp [hd]

/- A closed text parts from anything. -/
theorem parts_text
    {body : List Char}
    (hBody : ∀ d ∈ body, d ≠ '"')
    (rest : List Char) :
    Parts ('"' :: (body ++ ['"'])) rest := by
  intro c more hChars
  cases hChars
  have hInside : ∀ d ∈ body, (d != '"') = true := by
    simpa using hBody
  have hClose :
      ∀ d ∈ ('"' :: rest).head?, (d != '"') = false := by
    simp
  rcases span_append hInside hClose with ⟨hTake, hDrop⟩
  rw [following_quote, List.append_assoc,
    List.singleton_append, hTake, hDrop]

/- Two characters that are paired part from anything. -/
theorem parts_withEqual
    {pair : Kind × Kind}
    (h : paired? c = some pair)
    (rest : List Char) :
    Parts [c, '='] rest := by
  intro d more hChars
  cases hChars
  rw [following_of_paired? h]
  rfl

/-
  A character that may be paired parts from what does not
  start with an equality sign.
-/
theorem parts_of_paired?
    {pair : Kind × Kind}
    (h : paired? c = some pair)
    (hRest : ∀ d ∈ rest.head?, d ≠ '=') :
    Parts [c] rest := by
  intro d more hChars
  cases hChars
  rw [following_of_paired? h]
  cases rest with
  | nil => rfl
  | cons d rest =>
      have hd := hRest d rfl
      rw [List.nil_append]
      split
      · rename_i hCons
        cases hCons
        exact absurd rfl hd
      · rfl

/- What is spelled parts from delimiters. -/
theorem Spells.parts_of_delimits
    (h : Spells cs k l)
    (hKind : k ≠ .comment)
    (hRest : Delimits rest) :
    Parts cs rest := by
  have hClasses : ∀ d ∈ rest.head?,
      d ≠ '=' ∧ d ≠ '/' ∧ inNumber d = false ∧
        inWord d = false := by
    intro d hd
    have := hRest d hd
    simp_all [isDelimiter]
  cases h with
  | blank hBlank =>
      intro d more hChars
      cases hChars
      exact following_of_isBlank hBlank _
  | slash =>
      intro d more hChars
      cases hChars
      cases rest with
      | nil => rfl
      | cons d rest =>
          have hd := (hClasses d rfl).2.1
          rw [List.nil_append]
          unfold following
          rw [if_pos rfl]
          split
          · rename_i hCons
            cases hCons
            exact absurd rfl hd
          · rfl
  | comment => exact absurd rfl hKind
  | single hSingle =>
      intro d more hChars
      cases hChars
      exact following_of_single? hSingle _
  | alone hPaired =>
      exact parts_of_paired? hPaired
        fun d hd => (hClasses d hd).1
  | withEqual hPaired => exact parts_withEqual hPaired rest
  | text hBody => exact parts_text hBody rest
  | number hFirst hMore hNumber =>
      intro d more hChars
      cases hChars
      rcases
          span_append hMore
            fun d hd => (hClasses d hd).2.2.1 with
        ⟨hTake, hDrop⟩
      rw [following_of_isDigit hFirst, hTake, hDrop]
  | word hFirst hMore =>
      intro d more hChars
      cases hChars
      rcases
          span_append hMore
            fun d hd => (hClasses d hd).2.2.2 with
        ⟨hTake, hDrop⟩
      rw [following_of_startsWord hFirst, hTake, hDrop]

end Lexeme

end Lox
