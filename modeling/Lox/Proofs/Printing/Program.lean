import Mathlib
import Lox.Proofs.Evaluation.WellFormed
import Lox.Proofs.Printing.Decl

/-
  The text of a program is read as the program again.

  A program is the declarations that were read off some
  source.  Their text is scanned and read without errors, as
  declarations that agree with them, apart from lines.  The
  exception is a text within a block that holds a line feed:
  it is read with the blanks that indentation puts there.

  Key definitions include:
    * `Decl.unlined`
    * `Decl.KeepsLines`

  Key theorems include:
    * `Decl.ofSource_sequence`
    * `Decl.ofSource_sequenceText`
-/

namespace Lox

variable {limits : Limits} {source : String}
variable {items : List (Except ParseError Decl)}
variable {groups depth : Nat} {endings : Endings}
variable {d : Decl} {ds : List Decl}

------------------------------------------------------------
-- Definitions
------------------------------------------------------------

/- A declaration regardless of its lines. -/
def Decl.unlined
    (d : Decl) : Decl :=
  d.mapTokens (fun _ => Token.unlined) 0

/- Whether no text within a block holds a line feed. -/
def Decl.KeepsLines
    (d : Decl) : Prop :=
  ∀ p ∈ d.tokens 0, 0 < p.1 → p.2.literal.isOneLine = true

instance
    (d : Decl) : Decidable d.KeepsLines :=
  inferInstanceAs (Decidable (∀ p ∈ d.tokens 0,
    0 < p.1 → p.2.literal.isOneLine = true))

/- Whether a declaration is derived from proper tokens. -/
def Decl.IsDerived
    (endings : Endings)
    (groups depth : Nat)
    (d : Decl) : Prop :=
  ∃ ts, (∀ t ∈ ts, t.IsProper) ∧
    Decl.Derives endings groups depth ts d

------------------------------------------------------------
-- Lines
------------------------------------------------------------

/- Lines do not show in the text of a declaration. -/
theorem Decl.chars_unlined
    (d : Decl) :
    d.unlined.chars = d.chars :=
  chars_mapTokens (f := fun _ => Token.unlined)
    (fun _ _ => rfl) 0 d

/- Lines are left out once and for all. -/
theorem Decl.unlined_unlined
    (d : Decl) :
    d.unlined.unlined = d.unlined :=
  mapTokens_mapTokens 0 d

------------------------------------------------------------
-- Several Declarations
------------------------------------------------------------

/- Tokens of declarations are replaced one by one. -/
theorem Decl.mapAllTokens_eq_map
    (f : Nat → Token → Token)
    (n : Nat)
    (ds : List Decl) :
    Decl.mapAllTokens f n ds =
      ds.map fun d => d.mapTokens f n := by
  induction ds with
  | nil => rw [Decl.mapAllTokens, List.map_nil]
  | cons d ds ih => rw [Decl.mapAllTokens, ih, List.map_cons]

/- The text of a derived declaration is scanned as such. -/
theorem Decl.IsDerived.scans
    {rest : List Char}
    (h : d.IsDerived endings groups depth) :
    Scans d.chars rest (d.Rereads groups depth 0) := by
  rcases h with ⟨ts, hProper, hDerives⟩
  have hScans :
      Scans (shifted 0 d.chars) rest
        (d.Rereads groups depth 0) :=
    hDerives.scans hProper 0
  rw [shifted_zero] at hScans
  exact hScans

/- The text of derived declarations is scanned as such. -/
theorem Decl.scans_sequence
    (h : ∀ d ∈ ds, d.IsDerived endings groups depth) :
    Scans (Decl.sequence ds) []
      (Decl.AllReread groups depth 0 ds) := by
  unfold sequence
  induction ds with
  | nil =>
      apply Scans.nil.mono
      rintro _ rfl
      refine ⟨[], .nil, ?_⟩
      rw [Decl.mapAllTokens, Decl.mapAllTokens]
  | cons d ds ih =>
      have hFirst := h d List.mem_cons_self
      have hMore := ih fun d hd =>
        h d (List.mem_cons_of_mem _ hd)
      cases ds with
      | nil =>
          rw [List.map_cons, List.map_nil,
            List.intercalate_singleton]
          apply hFirst.scans.mono
          rintro us ⟨d', hDerives, hMap⟩
          refine ⟨[d'], ?_, ?_⟩
          · rw [← List.append_nil us]
            exact .cons hDerives .nil
          · simp only [Decl.mapAllTokens, hMap]
      | cons d₂ ds =>
          rw [List.map_cons, List.map_cons,
            List.intercalate_cons_cons]
          rw [List.map_cons] at hMore
          rw [List.append_assoc]
          apply hFirst.scans.append
          rintro us ⟨d', hDerives, hMap⟩
          apply (Scans.blank rfl hMore).mono
          rintro vs ⟨ds', hAll, hAllMap⟩
          refine ⟨d' :: ds', .cons hDerives hAll, ?_⟩
          simp only [Decl.mapAllTokens_eq_map,
            List.map_cons] at hAllMap ⊢
          rw [hMap, hAllMap]

/-
  The text of derived declarations is read without errors,
  as declarations that agree with them.
-/
theorem Decl.ofSource_sequence
    (h :
      ∀ d ∈ ds, d.IsDerived endings limits.groupRoom
        limits.depthRoom) :
    ∃ ds' : List Decl,
      Decl.ofSource limits (String.ofList (Decl.sequence ds)) =
          .ok (ds'.map .ok) ∧
        ds'.map Decl.unlined =
          ds.map fun d => d.mapTokens Token.reread 0 := by
  rcases ofSource_ofList (scans_sequence h) limits with
    ⟨line, ts, ⟨ds', hDerives, hMap⟩, hSource⟩
  have hRead :
      parseAll ⟨limits, line⟩ ts = ds'.map .ok :=
    parseAll_of_derivesAll hDerives
  refine ⟨ds', ?_, ?_⟩
  · rw [hSource, hRead]
  · rw [mapAllTokens_eq_map, mapAllTokens_eq_map] at hMap
    exact hMap

------------------------------------------------------------
-- Programs
------------------------------------------------------------

/- What is read off a source is derived from proper tokens. -/
theorem Decl.isDerived_of_ofSource
    (hSource : Decl.ofSource limits source = .ok items) :
    ∀ d ∈ Decl.declarationsOf items,
      d.IsDerived .optional limits.groupRoom
        limits.depthRoom :=
  fun _ hd => derives_of_ofSource hSource hd

/- Derived declarations have a text. -/
theorem Decl.sequenceText_of_isDerived
    (h : ∀ d ∈ ds, d.IsDerived endings groups depth) :
    Node.sequenceText (ds.map .decl) =
      .ok (String.ofList (Decl.sequence ds)) := by
  have hMissing :
      (ds.map Node.decl).findSome? Node.missing? = none := by
    rw [List.findSome?_eq_none_iff]
    intro n hn
    rcases List.mem_map.mp hn with ⟨d, hd, rfl⟩
    rcases h d hd with ⟨ts, hProper, hDerives⟩
    exact (hDerives.wellFormed hProper).missing?_eq_none
  have hChars :
      (ds.map Node.decl).map Node.chars =
        ds.map Decl.chars := by
    rw [List.map_map]
    rfl
  unfold Node.sequenceText
  rw [hMissing, hChars]
  rfl

/-
  A derived declaration that keeps its lines agrees with
  itself inside of blocks.
-/
theorem Decl.KeepsLines.mapTokens_reread
    (hLines : d.KeepsLines)
    (h : d.IsDerived endings groups depth) :
    d.mapTokens Token.reread 0 = d.unlined := by
  rcases h with ⟨ts, hProper, hDerives⟩
  apply Decl.mapTokens_congr
  rintro ⟨n, t⟩ hp
  have ht := hProper t (hDerives.mem_of_mem_tokens hp)
  have hDeepen : t.deepen n = t := by
    cases n with
    | zero => exact t.deepen_zero
    | succ n =>
        have hLine := hLines _ hp n.succ_pos
        have hLexeme := (ht.isSpelled.not_mem_iff
          ht.isTrivia_eq_false).mpr hLine
        exact Token.deepen_of_not_mem hLexeme hLine _
  exact congrArg Token.unlined hDeepen

/-
  The text of a program without line feeds inside of its
  blocks' texts is read as the same program, on other lines.
-/
theorem Decl.ofSource_sequenceText
    (hSource : Decl.ofSource limits source = .ok items)
    (hLines :
      ∀ d ∈ Decl.declarationsOf items, d.KeepsLines) :
    ∃ (text : String) (ds : List Decl),
      Node.sequenceText
            ((Decl.declarationsOf items).map .decl) =
          .ok text ∧
        Decl.ofSource limits text = .ok (ds.map .ok) ∧
        ds.map Decl.unlined =
          (Decl.declarationsOf items).map Decl.unlined := by
  have hDerived := isDerived_of_ofSource hSource
  rcases ofSource_sequence hDerived with ⟨ds, hRead, hMap⟩
  refine ⟨_, ds, sequenceText_of_isDerived hDerived, hRead,
    ?_⟩
  rw [hMap]
  apply List.map_congr_left
  intro d hd
  exact (hLines d hd).mapTokens_reread (hDerived d hd)

/- A program with a block is read as itself. -/
theorem Decl.ofSource_sequenceText_branch :
    ∃ items,
      Decl.ofSource .standard
            "if (a) \x7b print \"x\"; \x7d else !b" =
          .ok items ∧
        (∀ d ∈ Decl.declarationsOf items, d.KeepsLines) ∧
        ∃ (text : String) (ds : List Decl),
          Node.sequenceText
                ((Decl.declarationsOf items).map .decl) =
              .ok text ∧
            Decl.ofSource .standard text =
              .ok (ds.map .ok) ∧
            ds.map Decl.unlined =
              (Decl.declarationsOf items).map
                Decl.unlined := by
  have hSource :
      Decl.ofSource .standard
          "if (a) \x7b print \"x\"; \x7d else !b" =
        .ok [.ok (.statement (.ifElse
          (.identifier ⟨.identifier, "a", .absent, 1⟩)
          (.block [.statement (.print (.literal
            ⟨.string, "\"x\"", .text "x", 1⟩))])
          (.expression (.unary ⟨.bang, "!", .absent, 1⟩
            (.identifier
              ⟨.identifier, "b", .absent, 1⟩)))))] := by
    cbv
  refine ⟨_, hSource, ?_, ofSource_sequenceText hSource ?_⟩
  · decide
  · decide

end Lox
