import Lox.Proofs.Reading.Program
import Lox.Proofs.Scanning.Spelling

/-
  The tokens of programs: each of them is spelled by its
  lexeme, and a literal among them stands for a value.

  Key definitions include:
    * `Token.IsSpelled`
    * `Token.IsProper`

  Key theorems include:
    * `Token.IsSpelled.exists_value_eq_ok`
    * `Token.isProper_of_mem_body`
    * `Decl.derives_of_ofSource`
-/

namespace Lox

------------------------------------------------------------
-- Spelled Tokens
------------------------------------------------------------

namespace Token

/- Tokens that are spelled by their lexeme. -/
def IsSpelled
    (t : Token) : Prop :=
  Lexeme.Spells t.lexeme.toList t.kind t.literal

/- Spelled tokens that carry meaning. -/
structure IsProper
    (t : Token) : Prop where
  isSpelled : t.IsSpelled
  isTrivia_eq_false : t.kind.isTrivia = false

variable {t : Token}

end Token

/- Words are identifiers or have a reserved kind. -/
theorem Kind.ofWord_mem
    (w : String) :
    Kind.ofWord w ∈
      Kind.identifier :: Kind.reserved.map Prod.snd := by
  unfold ofWord
  cases hLookup : reserved.lookup w with
  | none => exact List.mem_cons_self
  | some k =>
      rcases List.lookup_eq_some_iff.mp hLookup with
        ⟨us, vs, hSplit, -⟩
      apply List.mem_cons_of_mem
      rw [hSplit]
      simp

/- No spelling stands for the end of the input. -/
theorem Lexeme.Spells.ne_endOfInput
    {cs : List Char}
    {k : Kind}
    {l : Literal}
    (h : Spells cs k l) :
    k ≠ .endOfInput := by
  cases h with
  | blank hBlank => nofun
  | slash => nofun
  | comment => nofun
  | single hSingle =>
      rintro rfl
      unfold single? at hSingle
      split at hSingle
      all_goals cases hSingle
  | alone hPaired =>
      rintro rfl
      unfold paired? at hPaired
      split at hPaired
      all_goals cases hPaired
  | withEqual hPaired =>
      rintro rfl
      unfold paired? at hPaired
      split at hPaired
      all_goals cases hPaired
  | text hBody => nofun
  | number hFirst hMore hNumber => nofun
  | @word c more hFirst hMore =>
      intro hEnd
      have hMem :=
        Kind.ofWord_mem (String.ofList (c :: more))
      rw [hEnd] at hMem
      revert hMem
      decide

/- An integer in range stands for the double nearest to it. -/
theorem Literal.value_integer
    {n : Int}
    {x : Float}
    (h : Double.ofInt? n = some x) :
    (integer n).value = .ok (.number x) := by
  -- The kernel must not compute `ofInt?`, so a variable
  -- takes its place before the function is applied.
  obtain ⟨ofInt?, hInt⟩ : ∃ f, f = Double.ofInt? := ⟨_, rfl⟩
  have hUnfolded :
      ∀ f, f = value → f (integer n) = .ok (.number x) := by
    intro f hf
    delta value at hf
    rw [← hInt] at h hf
    simp only [hf, h]
  exact hUnfolded value rfl

/- So does an integer that is not negative. -/
theorem Literal.value_natCast
    {n : Nat}
    {x : Float}
    (h : Double.ofRatio? n 1 = some x) :
    (integer n).value = .ok (.number x) := by
  apply value_integer
  have hSign : ¬ (n : Int) < 0 := by
    omega
  simp only [Double.ofInt?, Int.natAbs_natCast, h,
    Option.map_some, hSign, if_false]

/- A number that can be written stands for a value. -/
theorem Lexeme.exists_value_of_number?
    {cs : List Char}
    {n : Literal}
    (h : number? cs = some n) :
    ∃ v, n.value = .ok v := by
  unfold number? at h
  split at h
  · cases h
  · split at h
    · rcases Option.map_eq_some_iff.mp h with ⟨x, -, rfl⟩
      exact ⟨_, rfl⟩
    · split at h
      · cases h
      · rcases Option.map_eq_some_iff.mp h with ⟨x, hx, rfl⟩
        exact ⟨.number x, Literal.value_natCast hx⟩

/- The literal of a spelled token stands for a value. -/
theorem Lexeme.Spells.exists_value_eq_ok
    {cs : List Char}
    {k : Kind}
    {l : Literal}
    (h : Spells cs k l) :
    ∃ v, l.value = .ok v := by
  cases h with
  | blank hBlank => exact ⟨_, rfl⟩
  | slash => exact ⟨_, rfl⟩
  | comment => exact ⟨_, rfl⟩
  | single hSingle => exact ⟨_, rfl⟩
  | alone hPaired => exact ⟨_, rfl⟩
  | withEqual hPaired => exact ⟨_, rfl⟩
  | text hBody => exact ⟨_, rfl⟩
  | number hFirst hMore hNumber =>
      exact exists_value_of_number? hNumber
  | word hFirst hMore =>
      unfold wordLiteral
      split
      all_goals exact ⟨_, rfl⟩

------------------------------------------------------------
-- Scanned Tokens
------------------------------------------------------------

/- A token of a scan is spelled, or ends the input. -/
theorem Token.isSpelled_of_mem_scanLexemes
    {ws : List Lexeme}
    {line : Int}
    {t : Token}
    (hPieces : ∀ w ∈ ws, w.IsPiece)
    (h : .ok t ∈ Token.scanLexemes line ws) :
    t.IsSpelled ∨ t.kind = .endOfInput := by
  induction ws generalizing line with
  | nil =>
      rcases List.mem_cons.mp h with hHead | hTail
      · cases hHead
        exact .inr rfl
      · cases hTail
  | cons w ws ih =>
      rcases List.mem_cons.mp h with hHead | hTail
      · rcases
            Lexeme.spells_of_read
              (hPieces w List.mem_cons_self) hHead.symm with
          ⟨hSpells, hLexeme, -⟩
        left
        unfold Token.IsSpelled
        rw [hLexeme, Lexeme.text, String.toList_ofList]
        exact hSpells
      · exact ih (fun w hw =>
          hPieces w (List.mem_cons_of_mem _ hw)) hTail

/- The tokens that a program is read from are proper. -/
theorem Token.isProper_of_mem_body
    {source : String}
    {t : Token}
    (h :
      t ∈ Decl.body
        (significant (tokensOf (scan source)))) :
    t.IsProper := by
  have hEnd : t.kind ≠ .endOfInput := by
    simpa using
      List.all_eq_true.mp List.all_takeWhile t h
  have hSignificant :=
    (List.takeWhile_prefix _).subset h
  rcases List.mem_filter.mp hSignificant with
    ⟨hToken, hTrivia⟩
  rcases List.mem_filterMap.mp hToken with
    ⟨item, hItem, hOk⟩
  cases item with
  | error e => cases hOk
  | ok u =>
      cases hOk
      have hSpelled := isSpelled_of_mem_scanLexemes
        (fun w hw => Lexeme.isPiece_of_mem_cut hw) hItem
      exact ⟨hSpelled.resolve_right hEnd,
        by simpa using hTrivia⟩

/-
  A declaration that is read off a source is derived from
  proper tokens.
-/
theorem Decl.derives_of_ofSource
    {limits : Limits}
    {source : String}
    {items : List (Except ParseError Decl)}
    {d : Decl}
    (hSource : Decl.ofSource limits source = .ok items)
    (hd : d ∈ Decl.declarationsOf items) :
    ∃ ts, (∀ t ∈ ts, t.IsProper) ∧
      Decl.Derives .optional limits.groupRoom
        limits.depthRoom ts d := by
  rcases List.mem_filterMap.mp hd with ⟨item, hItem, hOk⟩
  cases item with
  | error e => cases hOk
  | ok c =>
      cases hOk
      unfold ofSource at hSource
      dsimp only at hSource
      split at hSource
      · cases hSource
        rcases derives_of_mem_parseAll hItem with
          ⟨ts, hInfix, hDerives⟩
        exact ⟨ts, fun t ht => Token.isProper_of_mem_body
          (hInfix.subset ht), hDerives⟩
      · cases hSource

end Lox
