import Lox.Proofs.Scanning.Pieces

/-
  Lines of a scan never fall.

  Tokens and lexical errors are on the lines on which their
  lexemes start, in the order of the source: from the first
  line on, up to the line on which the source ends.

  Key definitions include:
    * `Rises`

  Key theorems include:
    * `rises_cons`
    * `Token.rises_readAll`
    * `Token.rises_ofSource`
    * `Token.rises_errorsOf`
-/

namespace Lox

variable {first last : Int} {lines : List Int}
variable {α β : Type}

------------------------------------------------------------
-- Rising Lines
------------------------------------------------------------

/- Whether lines never fall, from a first to a last one. -/
def Rises
    (first last : Int)
    (lines : List Int) : Prop :=
  (first :: (lines ++ [last])).Pairwise (· ≤ ·)

/- Without lines between, the first is no later. -/
theorem rises_nil :
    Rises first last [] ↔ first ≤ last := by
  simp [Rises]

/- After the next line, lines rise from there. -/
theorem rises_cons
    {line : Int} :
    Rises first last (line :: lines) ↔
      first ≤ line ∧ Rises line last lines := by
  unfold Rises
  rw [List.cons_append, List.pairwise_cons]
  constructor
  · intro h
    exact ⟨h.1 line List.mem_cons_self, h.2⟩
  · intro h
    refine ⟨?_, h.2⟩
    intro other hOther
    rcases List.mem_cons.mp hOther with rfl | hOther
    · exact h.1
    · have := (List.pairwise_cons.mp h.2).1 other hOther
      omega

namespace Rises

/- The lines between are in order. -/
theorem pairwise
    (h : Rises first last lines) :
    lines.Pairwise (· ≤ ·) :=
  (List.pairwise_append.mp (List.pairwise_cons.mp h).2).1

/- The lines between are within the bounds. -/
theorem le_of_mem
    (h : Rises first last lines)
    {line : Int}
    (hLine : line ∈ lines) :
    first ≤ line ∧ line ≤ last := by
  rcases List.pairwise_cons.mp h with ⟨hFirst, hMore⟩
  exact ⟨hFirst line (List.mem_append_left _ hLine),
    (List.pairwise_append.mp hMore).2.2 line hLine last
      List.mem_cons_self⟩

/- The first line is no later than the last. -/
theorem le
    (h : Rises first last lines) :
    first ≤ last :=
  (List.pairwise_cons.mp h).1 last (by simp)

/- Lines also rise from earlier ones. -/
theorem of_le
    {earlier : Int}
    (h : Rises first last lines)
    (hEarlier : earlier ≤ first) :
    Rises earlier last lines := by
  unfold Rises at h ⊢
  rw [List.pairwise_cons] at h ⊢
  refine ⟨fun other hOther => ?_, h.2⟩
  have := h.1 other hOther
  omega

/- Fewer lines rise as well. -/
theorem sublist
    {fewer : List Int}
    (h : Rises first last lines)
    (hFewer : fewer.Sublist lines) :
    Rises first last fewer :=
  List.Pairwise.sublist
    ((hFewer.append (List.Sublist.refl _)).cons_cons first)
    h

end Rises

/- Some of the items of a list, and something about each. -/
theorem map_filterMap_sublist
    {γ : Type}
    {choose : α → Option β}
    {f : β → γ}
    {g : α → γ}
    (hSame : ∀ x y, choose x = some y → f y = g x)
    (xs : List α) :
    ((xs.filterMap choose).map f).Sublist (xs.map g) := by
  induction xs with
  | nil => exact .slnil
  | cons x xs ih =>
      cases hChoose : choose x with
      | none =>
          rw [List.filterMap_cons_none hChoose]
          exact ih.cons _
      | some y =>
          rw [List.filterMap_cons_some hChoose,
            List.map_cons, List.map_cons,
            hSame x y hChoose]
          exact ih.cons_cons _

------------------------------------------------------------
-- Scans
------------------------------------------------------------

namespace Token

/- What is read off lexemes is on rising lines. -/
theorem rises_readAll
    (line : Int)
    (ws : List Lexeme) :
    Rises line (line + newlines (ws.flatMap Lexeme.chars))
      ((readAll line ws).map itemLine) := by
  induction ws generalizing line with
  | nil =>
      rw [readAll, List.map_nil, rises_nil]
      exact Int.le_add_of_nonneg_right
        (Int.natCast_nonneg _)
  | cons w ws ih =>
      have hMore := ih (line + newlines w.chars)
      rw [add_newlines_cons] at hMore
      rw [readAll, List.map_cons, w.itemLine_read,
        rises_cons]
      exact ⟨Int.le_refl line, hMore.of_le
        (Int.le_add_of_nonneg_right (Int.natCast_nonneg _))⟩

/- What is before the end of a source is on rising lines. -/
theorem rises_beforeEnd
    (source : String) :
    Rises 1 (1 + newlines source.toList)
      ((beforeEnd source).map itemLine) := by
  have hAll := rises_readAll 1 (Lexeme.cut source.toList)
  rwa [Lexeme.flatMap_chars_cut] at hAll

/- The tokens of a source are on rising lines. -/
theorem rises_ofSource
    (source : String) :
    Rises 1 (1 + newlines source.toList)
      ((ofSource source).map Token.line) := by
  have hTokens :
      ((tokensOf (beforeEnd source)).map Token.line).Sublist
        ((beforeEnd source).map itemLine) := by
    apply map_filterMap_sublist
    intro item t hItem
    cases item with
    | error e => cases hItem
    | ok u =>
        cases hItem
        rfl
  rw [ofSource_eq]
  exact (rises_beforeEnd source).sublist
    ((List.filter_sublist.map Token.line).trans hTokens)

/- The lexical errors of a source are on rising lines. -/
theorem rises_errorsOf
    (source : String) :
    Rises 1 (1 + newlines source.toList)
      ((errorsOf (scan source)).map LexError.line) := by
  rw [errorsOf_scan]
  apply (rises_beforeEnd source).sublist
  apply map_filterMap_sublist
  intro item e hItem
  cases item with
  | error d =>
      cases hItem
      rfl
  | ok t => cases hItem

end Token

end Lox
