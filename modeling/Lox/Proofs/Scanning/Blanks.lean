import Lox.Proofs.Scanning.Longest
import Lox.Proofs.Printing.Shift

/-
  Blanks between lexemes carry no meaning.

  Let blanks be put into a source that is scanned without an
  error, somewhere between its items.  The piece in front of
  them is still a piece, since blanks go on with none but a
  comment, which takes those up to a line feed.  What comes
  after them is cut as before.  So the new source is scanned
  without an error as well, and its significant tokens are
  the same, apart from lines.

  Key definitions include:
    * `Lexeme.Says`
    * `Token.insertAt`

  Key theorems include:
    * `Lexeme.Parts.of_head?_eq`
    * `Lexeme.cut_append_of_head?_eq`
    * `Lexeme.exists_cut_append_blanks`
    * `Lexeme.Says.insert_blanks`
    * `Token.map_unlined_insertAt`
-/

namespace Lox

variable {cs bs more rest rest' : List Char} {c : Char}
variable {w : Lexeme} {ws vs : List Lexeme}
variable {ts us : List Token}
variable {k : Kind} {l : Literal}
variable {source : String} {line : Int}

------------------------------------------------------------
-- Parts of Texts
------------------------------------------------------------

namespace Lexeme

/- A piece is what its first character takes. -/
theorem parts_cons_iff :
    Parts (c :: more) rest ↔
      following c (more ++ rest) = (more, rest) := by
  constructor
  · exact fun h => h c more rfl
  · rintro h d ds hChars
    cases hChars
    exact h

/- Taking stops between two parts only as the test says. -/
theorem span_append_iff
    {p : Char → Bool} :
    (more ++ rest).takeWhile p = more ∧
        (more ++ rest).dropWhile p = rest ↔
      (∀ d ∈ more, p d = true) ∧
        ∀ d ∈ rest.head?, p d = false := by
  constructor
  · rintro ⟨hTake, hDrop⟩
    refine ⟨fun d hd => ?_, fun d hd => ?_⟩
    · rw [← hTake] at hd
      exact List.all_eq_true.mp List.all_takeWhile d hd
    · have hStop := List.head?_dropWhile_not p (more ++ rest)
      rw [hDrop, hd] at hStop
      exact hStop
  · exact fun ⟨hMore, hRest⟩ => span_append hMore hRest

/- A comment goes on up to a line feed. -/
theorem parts_comment_iff :
    Parts ('/' :: '/' :: more) rest ↔
      (∀ d ∈ more, d ≠ '\n') ∧ ∀ d ∈ rest.head?, d = '\n' := by
  rw [parts_cons_iff, List.cons_append,
    following_slash_slash, ← List.cons_append,
    Prod.mk.injEq, span_append_iff]
  simp

/- A slash that takes anything takes another one first. -/
theorem eq_slash_of_parts
    {d : Char}
    (h : Parts ('/' :: d :: more) rest) :
    d = '/' := by
  apply Decidable.byContradiction
  intro hSlash
  have hAlone :
      following '/' (d :: (more ++ rest)) =
        ([], d :: (more ++ rest)) :=
    following_slash_of_ne (by simpa using hSlash)
  rw [parts_cons_iff, List.cons_append, hAlone] at h
  cases h

/- A slash stands alone in front of all but another one. -/
theorem parts_slash_iff :
    Parts ['/'] rest ↔ ∀ d ∈ rest.head?, d ≠ '/' := by
  rw [parts_cons_iff, List.nil_append]
  refine ⟨?_, following_slash_of_ne⟩
  rintro h d hd rfl
  rcases List.head?_eq_some_iff.mp hd with ⟨after, rfl⟩
  cases h

/-
  An equality sign ends what it pairs with, and goes on with
  what may be paired.
-/
theorem parts_paired_iff
    {pair : Kind × Kind}
    (hPair : paired? c = some pair) :
    Parts (c :: more) rest ↔
      more = ['='] ∨
        more = [] ∧ ∀ d ∈ rest.head?, d ≠ '=' := by
  constructor
  · intro h
    rw [parts_cons_iff, following_of_paired? hPair] at h
    split at h
    · cases h
      exact .inl rfl
    · rename_i hOther
      cases h
      refine .inr ⟨rfl, ?_⟩
      rintro d hd rfl
      rcases List.head?_eq_some_iff.mp hd with ⟨after, rfl⟩
      exact hOther after rfl
  · rintro (rfl | ⟨rfl, hRest⟩)
    · exact parts_withEqual hPair rest
    · exact parts_of_paired? hPair hRest

/- A text that is closed parts from anything. -/
theorem parts_quote_iff_of_mem
    (hMem : '"' ∈ more) :
    Parts ('"' :: more) rest ↔
      ∃ body, (∀ d ∈ body, d ≠ '"') ∧ more = body ++ ['"'] := by
  constructor
  · intro h
    rcases List.eq_append_cons_of_mem hMem with
      ⟨body, after, rfl, hBody⟩
    rw [parts_cons_iff, List.append_assoc, List.cons_append,
      following_quote_of_closed hBody, Prod.mk.injEq] at h
    refine ⟨body, ?_, h.1.symm⟩
    rintro d hd rfl
    exact hBody hd
  · rintro ⟨body, hBody, rfl⟩
    exact parts_text hBody rest

/- Otherwise it parts from nothing but the end. -/
theorem parts_quote_iff_of_not_mem
    (hMem : '"' ∉ more) :
    Parts ('"' :: more) rest ↔ rest = [] := by
  rw [parts_cons_iff]
  constructor
  · intro h
    by_cases hRest : '"' ∈ rest
    · rcases List.eq_append_cons_of_mem hRest with
        ⟨body, after, rfl, hBody⟩
      have hBoth : '"' ∉ more ++ body := by
        simp [hMem, hBody]
      rw [← List.append_assoc,
        following_quote_of_closed hBoth, Prod.mk.injEq] at h
      rw [← h.1] at hMem
      exact absurd (by simp) hMem
    · have hBoth : '"' ∉ more ++ rest := by
        simp [hMem, hRest]
      rw [following_quote_of_open hBoth, Prod.mk.injEq] at h
      exact h.2.symm
  · rintro rfl
    rw [List.append_nil, following_quote_of_open hMem]

/- Only the next character decides where a piece ends. -/
theorem Parts.of_head?_eq
    (h : Parts (c :: more) rest)
    (hHead : rest'.head? = rest.head?) :
    Parts (c :: more) rest' := by
  rcases following_cases c with
    rfl | rfl | ⟨pair, hPair⟩ | ⟨p, hTake⟩
  · cases more with
    | nil =>
        rw [parts_slash_iff] at h ⊢
        rwa [hHead]
    | cons d more =>
        cases eq_slash_of_parts h
        rw [parts_comment_iff] at h ⊢
        rwa [hHead]
  · by_cases hMem : '"' ∈ more
    · rw [parts_quote_iff_of_mem hMem] at h ⊢
      exact h
    · rw [parts_quote_iff_of_not_mem hMem] at h ⊢
      rw [h] at hHead
      exact List.head?_eq_none_iff.mp hHead
  · rw [parts_paired_iff hPair] at h ⊢
    rwa [hHead]
  · rw [parts_cons_iff, hTake, Prod.mk.injEq,
      span_append_iff] at h ⊢
    rwa [hHead]

------------------------------------------------------------
-- Cutting Parts Off
------------------------------------------------------------

/- The piece that comes first is parted from what is left. -/
theorem parts_of_cut_append
    (h : cut (w.chars ++ rest) = w :: vs) :
    Parts w.chars rest ∧ cut rest = vs := by
  rcases w with ⟨c, more⟩
  change cut (c :: (more ++ rest)) = _ at h
  rw [cut, List.cons.injEq, Lexeme.mk.injEq] at h
  rcases h with ⟨⟨-, hMore⟩, hCut⟩
  have hSplit := following_append c (more ++ rest)
  rw [hMore, List.append_cancel_left_eq] at hSplit
  rw [hSplit] at hCut
  exact ⟨parts_cons_iff.mpr (Prod.ext hMore hSplit), hCut⟩

/-
  The pieces at the start of a text are its pieces whatever
  comes after them, if this starts with the same character.
-/
theorem cut_append_of_head?_eq
    (hCut : cut (ws.flatMap chars ++ rest) = ws ++ vs)
    (hHead : rest'.head? = rest.head?) :
    cut (ws.flatMap chars ++ rest') = ws ++ cut rest' := by
  induction ws with
  | nil => rfl
  | cons w ws ih =>
      rw [List.flatMap_cons, List.append_assoc] at hCut ⊢
      rcases parts_of_cut_append hCut with ⟨hParts, hMore⟩
      have hNext :
          (ws.flatMap chars ++ rest').head? =
            (ws.flatMap chars ++ rest).head? := by
        rw [List.head?_append, List.head?_append, hHead]
      have hFirst : Parts w.chars _ := hParts.of_head?_eq hNext
      rw [cut_append_of_parts hFirst, ih hMore]
      rfl

/- From a piece on, a text is cut as before. -/
theorem cut_of_cut_append
    (hCut : cut (ws.flatMap chars ++ rest) = ws ++ vs) :
    cut rest = vs := by
  rw [cut_append_of_head?_eq hCut rfl] at hCut
  exact List.append_cancel_left hCut

/- The piece that a blank is. -/
def alone
    (c : Char) : Lexeme :=
  ⟨c, []⟩

/- Blanks are pieces of their own. -/
theorem cut_blanks_append
    (hBlank : ∀ c ∈ bs, isBlank c = true)
    (rest : List Char) :
    cut (bs ++ rest) = bs.map alone ++ cut rest := by
  induction bs with
  | nil => rfl
  | cons b bs ih =>
      rw [List.forall_mem_cons] at hBlank
      rw [List.cons_append, cut,
        following_of_isBlank hBlank.1, ih hBlank.2]
      rfl

/- A blank goes on with nothing but a comment. -/
theorem isDelimiter_of_isBlank
    (h : isBlank c = true) :
    isDelimiter c = true := by
  simp only [isBlank, Bool.or_eq_true, beq_iff_eq] at h
  rcases h with ((rfl | rfl) | rfl) | rfl
  all_goals rfl

end Lexeme

------------------------------------------------------------
-- What Pieces Say
------------------------------------------------------------

/-
  Whether all pieces are tokens, and which of them are
  significant, lines aside.
-/
structure Lexeme.Says
    (ws : List Lexeme)
    (ts : List Token) : Prop where
  errors_eq :
    ∀ line, Token.errorsOf (Token.readAll line ws) = []
  tokens_eq :
    ∀ line,
      (Token.significant
          (Token.tokensOf (Token.readAll line ws))).map
          Token.unlined =
        ts

namespace Lexeme

/- A line is as good as any other. -/
theorem says_of_errorsOf
    (h : Token.errorsOf (Token.readAll line ws) = []) :
    Says ws
      ((Token.significant
          (Token.tokensOf (Token.readAll line ws))).map
        Token.unlined) := by
  have hLower :
      ∀ other,
        Token.readAll other ws =
          (Token.readAll line ws).map
            (Token.lowerItem (other - line)) := by
    intro other
    rw [← Token.readAll_add]
    congr 1
    omega
  constructor
  · intro other
    rw [hLower, Token.errorsOf_map_lowerItem, h]
    rfl
  · intro other
    rw [hLower, Token.tokensOf_map_lowerItem,
      Token.significant_map_lower, List.map_map]
    rfl

/- Pieces that are trivia say nothing. -/
theorem Spells.says_of_isTrivia
    (h : Spells w.chars k l)
    (hKind : k.isTrivia = true) :
    Says [w] [] := by
  constructor
  · intro line
    rw [Token.readAll, h.read rfl]
    rfl
  · intro line
    rw [Token.readAll, h.read rfl]
    simp [Token.readAll, Token.tokensOf, Token.significant,
      Except.toOption, hKind]

namespace Says

/- Where nothing is, nothing is said. -/
theorem nil :
    Says [] [] :=
  ⟨fun _ => rfl, fun _ => rfl⟩

/- Pieces say one thing only. -/
theorem unique
    (h : Says ws ts)
    (hOther : Says ws us) :
    ts = us :=
  (h.tokens_eq 0).symm.trans (hOther.tokens_eq 0)

/- Pieces in a row say what the ones and the others say. -/
theorem append
    (hws : Says ws ts)
    (hvs : Says vs us) :
    Says (ws ++ vs) (ts ++ us) := by
  constructor
  · intro line
    have hFirst := hws.errors_eq line
    rw [Token.readAll_append]
    unfold Token.errorsOf at hFirst ⊢
    rw [List.filterMap_append, hFirst]
    exact hvs.errors_eq _
  · intro line
    have hFirst := hws.tokens_eq line
    rw [Token.readAll_append]
    unfold Token.tokensOf Token.significant at hFirst ⊢
    rw [List.filterMap_append, List.filter_append,
      List.map_append, hFirst]
    exact congrArg (ts ++ ·) (hvs.tokens_eq _)

/- What pieces in a row say, each part of them says a part. -/
theorem of_append
    (h : Says (ws ++ vs) ts) :
    ∃ us us', Says ws us ∧ Says vs us' ∧ ts = us ++ us' := by
  have hErrors := h.errors_eq 0
  rw [Token.readAll_append] at hErrors
  unfold Token.errorsOf at hErrors
  rw [List.filterMap_append, List.append_eq_nil_iff]
    at hErrors
  have hws := says_of_errorsOf hErrors.1
  have hvs := says_of_errorsOf hErrors.2
  refine ⟨_, _, hws, hvs, ?_⟩
  rw [← h.tokens_eq 0, (hws.append hvs).tokens_eq 0]

/- Blanks say nothing. -/
theorem blanks
    (hBlank : ∀ c ∈ bs, isBlank c = true) :
    Says (bs.map alone) [] := by
  induction bs with
  | nil => exact nil
  | cons b bs ih =>
      rw [List.forall_mem_cons] at hBlank
      have hSpells : Spells (alone b).chars .blank .absent :=
        .blank hBlank.1
      exact (hSpells.says_of_isTrivia rfl).append
        (ih hBlank.2)

end Says

/-
  Behind a piece that is no comment, blanks are pieces of
  their own.
-/
theorem cut_append_blanks
    (hSpells : Spells w.chars k l)
    (hKind : k ≠ .comment)
    (hParts : Parts w.chars rest)
    (hBlank : ∀ c ∈ bs, isBlank c = true) :
    cut (w.chars ++ (bs ++ rest)) =
      w :: (bs.map alone ++ cut rest) := by
  have hBlanks : Parts w.chars (bs ++ rest) := by
    cases bs with
    | nil => exact hParts
    | cons b bs =>
        apply hSpells.parts_of_delimits hKind
        rintro c ⟨⟩
        exact isDelimiter_of_isBlank
          (hBlank b List.mem_cons_self)
  rw [cut_append_of_parts hBlanks,
    cut_blanks_append hBlank]

/- A comment takes the blanks up to a line feed. -/
theorem cut_comment_append_blanks
    {taken left : List Char}
    (hParts : Parts ('/' :: '/' :: more) rest)
    (hTaken : ∀ d ∈ taken, d ≠ '\n')
    (hHead : ∀ d ∈ left.head?, d = '\n')
    (hBlank : ∀ c ∈ left, isBlank c = true) :
    cut ('/' :: '/' :: more ++ (taken ++ left ++ rest)) =
      ⟨'/', '/' :: (more ++ taken)⟩ ::
        (left.map alone ++ cut rest) := by
  rw [parts_comment_iff] at hParts
  rcases hParts with ⟨hMore, hRest⟩
  have hGrown :
      Parts (chars ⟨'/', '/' :: (more ++ taken)⟩)
        (left ++ rest) := by
    apply parts_comment_iff.mpr
    refine ⟨fun d hd => ?_, fun d hd => ?_⟩
    · rcases List.mem_append.mp hd with hd | hd
      · exact hMore d hd
      · exact hTaken d hd
    · cases left with
      | nil => exact hRest d hd
      | cons e left => exact hHead d hd
  have hCut := cut_append_of_parts hGrown
  rw [cut_blanks_append hBlank] at hCut
  simpa [chars] using hCut

/- A line goes up to its line feed, if it has one. -/
theorem exists_line_append
    (cs : List Char) :
    ∃ taken left,
      cs = taken ++ left ∧ (∀ d ∈ taken, d ≠ '\n') ∧
        ∀ d ∈ left.head?, d = '\n' := by
  have hSplit :
      cs.takeWhile (· != '\n') ++ cs.dropWhile (· != '\n') =
        cs :=
    List.takeWhile_append_dropWhile
  refine ⟨_, _, hSplit.symm, ?_, ?_⟩
  · intro d hd
    simpa using List.all_eq_true.mp List.all_takeWhile d hd
  · intro d hd
    have hStop := List.head?_dropWhile_not (· != '\n') cs
    rw [hd] at hStop
    simpa using hStop

/- What stands alone is no comment. -/
theorem ne_comment_of_single?
    (h : single? c = some k) :
    k ≠ .comment := by
  rintro rfl
  unfold single? at h
  split at h
  all_goals cases h

/- What may be paired is no comment, alone or paired. -/
theorem ne_comment_of_paired?
    {pair : Kind × Kind}
    (h : paired? c = some pair) :
    pair.1 ≠ .comment ∧ pair.2 ≠ .comment := by
  unfold paired? at h
  split at h
  all_goals cases h
  all_goals exact ⟨by decide, by decide⟩

/- A comment is spelled with two characters at least. -/
theorem Spells.exists_of_comment
    (h : Spells cs k l)
    (hKind : k = .comment) :
    ∃ d more, cs = '/' :: d :: more := by
  cases h with
  | comment => exact ⟨_, _, rfl⟩
  | single hSingle =>
      exact absurd hKind (ne_comment_of_single? hSingle)
  | alone hPaired =>
      exact absurd hKind (ne_comment_of_paired? hPaired).1
  | withEqual hPaired =>
      exact absurd hKind (ne_comment_of_paired? hPaired).2
  | @word c more =>
      have hMem :=
        Kind.ofWord_mem (String.ofList (c :: more))
      rw [hKind] at hMem
      exact absurd hMem (by decide)
  | _ => cases hKind

/-
  Whatever a piece says, it says the same with blanks behind
  it, and what comes next is cut as before.
-/
theorem exists_cut_append_blanks
    (hPiece : w.IsPiece)
    (hSays : Says [w] ts)
    (hParts : Parts w.chars rest)
    (hBlank : ∀ c ∈ bs, isBlank c = true) :
    ∃ us,
      cut (w.chars ++ (bs ++ rest)) = us ++ cut rest ∧
        Says us ts := by
  rcases Token.exists_read_of_errorsOf (hSays.errors_eq 0) w
      List.mem_cons_self with
    ⟨line, t, hRead⟩
  have hSpells := (spells_of_read hPiece hRead).1
  by_cases hKind : t.kind = .comment
  · rcases hSpells.exists_of_comment hKind with
      ⟨d, more, hChars⟩
    rcases exists_line_append bs with
      ⟨taken, left, rfl, hTaken, hHead⟩
    have hLeft : ∀ c ∈ left, isBlank c = true :=
      fun c hc => hBlank c (List.mem_append_right taken hc)
    rw [hChars] at hParts ⊢
    cases eq_slash_of_parts hParts
    have hTrivia : t.kind.isTrivia = true := by
      rw [hKind]
      rfl
    cases hSays.unique (hSpells.says_of_isTrivia hTrivia)
    have hGrown :
        Spells (chars ⟨'/', '/' :: (more ++ taken)⟩)
          .comment .absent :=
      .comment
    exact ⟨_,
      cut_comment_append_blanks hParts hTaken hHead hLeft,
      (hGrown.says_of_isTrivia rfl).append
        (Says.blanks hLeft)⟩
  · have hCut :=
      cut_append_blanks hSpells hKind hParts hBlank
    have hBoth := hSays.append (Says.blanks hBlank)
    rw [List.append_nil] at hBoth
    exact ⟨_, hCut, hBoth⟩

/-
  Pieces that are tokens say the same with blanks between
  them.
-/
theorem Says.insert_blanks
    (hCut : cut (ws.flatMap chars ++ rest) = ws ++ vs)
    (hSays : Says (ws ++ vs) ts)
    (hBlank : ∀ c ∈ bs, isBlank c = true) :
    Says (cut (ws.flatMap chars ++ (bs ++ rest))) ts := by
  have hRest : cut rest = vs := cut_of_cut_append hCut
  rcases hSays.of_append with ⟨us, us', hws, hvs, rfl⟩
  -- Of the pieces in front, only the last one meets blanks;
  -- what follows any other one starts as it did.
  rcases List.eq_nil_or_concat ws with rfl | ⟨init, w, rfl⟩
  · rw [List.flatMap_nil, List.nil_append,
      cut_blanks_append hBlank, hRest]
    cases hws.unique Says.nil
    exact (Says.blanks hBlank).append hvs
  · have hPiece : w.IsPiece :=
      isPiece_of_mem_cut (by rw [hCut]; simp)
    rw [List.concat_eq_append] at hws hCut ⊢
    rw [List.append_assoc, List.flatMap_append,
      List.append_assoc, List.flatMap_singleton] at hCut
    have hLast := parts_of_cut_append (cut_of_cut_append hCut)
    rcases hws.of_append with ⟨ts, ts', hInit, hw, rfl⟩
    rcases exists_cut_append_blanks hPiece hw hLast.1
        hBlank with
      ⟨grown, hGrown, hSame⟩
    have hHead :
        (w.chars ++ (bs ++ rest)).head? =
          (w.chars ++ rest).head? :=
      rfl
    rw [List.flatMap_append, List.append_assoc,
      List.flatMap_singleton,
      cut_append_of_head?_eq hCut hHead, hGrown, hRest,
      List.append_assoc]
    exact hInit.append (hSame.append hvs)

end Lexeme

------------------------------------------------------------
-- Sources
------------------------------------------------------------

namespace Token

/- What tokens in a row were written as. -/
def written
    (ts : List Token) : List Char :=
  (ts.map lexeme).flatMap String.toList

/-
  A source with a text put in behind so many of the tokens
  that it is scanned as, be they significant or not.
-/
def insertAt
    (i : Nat)
    (text source : String) : String :=
  let ts := tokensOf (scan source)
  String.ofList
    (written (ts.take i) ++
      (text.toList ++ written (ts.drop i)))

/- The tokens of pieces were written as these. -/
theorem map_lexeme_tokensOf_readAll
    (hPieces : ∀ w ∈ ws, w.IsPiece)
    (h : errorsOf (readAll line ws) = []) :
    (tokensOf (readAll line ws)).map lexeme =
      ws.map Lexeme.text := by
  induction ws generalizing line with
  | nil => rfl
  | cons w ws ih =>
      rw [List.forall_mem_cons] at hPieces
      rw [readAll] at h ⊢
      cases hRead : w.read line with
      | error e =>
          rw [hRead] at h
          cases h
      | ok t =>
          rw [hRead] at h
          have hSpelled :=
            Lexeme.spells_of_read hPieces.1 hRead
          rw [List.map_cons, ← hSpelled.2.1,
            ← ih hPieces.2 h]
          rfl

/- The tokens of a source were written as its pieces. -/
theorem map_lexeme_tokensOf_scan
    (h : errorsOf (scan source) = []) :
    (tokensOf (scan source)).map lexeme =
      (Lexeme.cut source.toList).map Lexeme.text ++ [""] := by
  rw [errorsOf_scan] at h
  have hPieces :=
    map_lexeme_tokensOf_readAll
      (fun w hw => Lexeme.isPiece_of_mem_cut hw) h
  rw [scan_eq, ← hPieces]
  unfold tokensOf
  rw [List.filterMap_append, List.map_append]
  rfl

/- Pieces, and what is left of the end, are written so. -/
theorem flatMap_toList_append
    {ends : List String}
    (hEnd : ∀ s ∈ ends, s = "") :
    (ws.map Lexeme.text ++ ends).flatMap String.toList =
      ws.flatMap Lexeme.chars := by
  have hNone : ends.flatMap String.toList = [] := by
    rw [List.flatMap_eq_nil_iff]
    intro s hs
    rw [hEnd s hs]
    rfl
  rw [List.flatMap_append, hNone, List.append_nil,
    List.flatMap_map]
  simp only [Lexeme.text, String.toList_ofList]

/- Behind so many tokens is behind so many pieces. -/
theorem toList_insertAt
    (h : errorsOf (scan source) = [])
    (i : Nat)
    (text : String) :
    (insertAt i text source).toList =
      ((Lexeme.cut source.toList).take i).flatMap
          Lexeme.chars ++
        (text.toList ++
          ((Lexeme.cut source.toList).drop i).flatMap
            Lexeme.chars) := by
  unfold insertAt written
  rw [String.toList_ofList, List.map_take, List.map_drop,
    map_lexeme_tokensOf_scan h, List.take_append,
    List.drop_append, ← List.map_take, ← List.map_drop,
    flatMap_toList_append, flatMap_toList_append]
  · exact fun s hs =>
      List.mem_singleton.mp (List.mem_of_mem_drop hs)
  · exact fun s hs =>
      List.mem_singleton.mp (List.mem_of_mem_take hs)

/- What the pieces of a source say, its scan says. -/
theorem says_cut_iff :
    Lexeme.Says (Lexeme.cut source.toList) ts ↔
      errorsOf (scan source) = [] ∧
        (ofSource source).map unlined = ts := by
  rw [errorsOf_scan, ofSource_eq]
  constructor
  · exact fun h => ⟨h.errors_eq 1, h.tokens_eq 1⟩
  · rintro ⟨hErrors, rfl⟩
    exact Lexeme.says_of_errorsOf hErrors

/-
  Where blanks are put between the tokens of a source, its
  significant tokens stay the same, lines aside.
-/
theorem map_unlined_insertAt
    {blanks : String}
    (h : errorsOf (scan source) = [])
    (hBlank : ∀ c ∈ blanks.toList, Lexeme.isBlank c = true)
    (i : Nat) :
    errorsOf (scan (insertAt i blanks source)) = [] ∧
      (ofSource (insertAt i blanks source)).map unlined =
        (ofSource source).map unlined := by
  have hSays := says_cut_iff.mpr ⟨h, rfl⟩
  have hSplit :=
    List.take_append_drop i (Lexeme.cut source.toList)
  have hCut :
      Lexeme.cut
          (((Lexeme.cut source.toList).take i).flatMap
              Lexeme.chars ++
            ((Lexeme.cut source.toList).drop i).flatMap
              Lexeme.chars) =
        (Lexeme.cut source.toList).take i ++
          (Lexeme.cut source.toList).drop i := by
    rw [← List.flatMap_append, hSplit,
      Lexeme.flatMap_chars_cut]
  rw [← hSplit] at hSays
  have hBlanks := Lexeme.Says.insert_blanks hCut hSays hBlank
  rw [← toList_insertAt h] at hBlanks
  exact says_cut_iff.mp hBlanks

end Token

end Lox
