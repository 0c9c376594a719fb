import Lox.Proofs.Printing.Program

/-
  How the text of a program grows when it is read and
  printed again.

  Every line feed in a text within blocks gets two blanks
  more for each of the blocks; nothing else changes.  So the
  text stays as it is exactly if there is no such line feed.

  Key definitions include:
    * `Grows`
    * `excess`

  Key theorems include:
    * `Decl.grows_deepen`
    * `Canonical.text_eq_iff`
-/

namespace Lox

variable {cs ds cs' ds' : List Char} {j k n : Nat}

------------------------------------------------------------
-- Growth of Characters
------------------------------------------------------------

/- Characters that are longer by `k`, in as many lines. -/
structure Grows
    (k : Nat)
    (cs cs' : List Char) : Prop where
  length_eq : cs'.length = cs.length + k
  newlines_eq : Token.newlines cs' = Token.newlines cs

namespace Grows

/- What stays the same does not grow. -/
theorem refl
    (cs : List Char) :
    Grows 0 cs cs :=
  ⟨rfl, rfl⟩

/- What is put together grows by what its parts grow by. -/
theorem append
    (h : Grows j cs cs')
    (h' : Grows k ds ds') :
    Grows (j + k) (cs ++ ds) (cs' ++ ds') where
  length_eq := by
    rw [List.length_append, List.length_append, h.length_eq,
      h'.length_eq]
    omega
  newlines_eq := by
    have hFirst := h.newlines_eq
    have hSecond := h'.newlines_eq
    unfold Token.newlines at hFirst hSecond ⊢
    rw [List.count_append, List.count_append, hFirst,
      hSecond]

/- A common start does not grow. -/
theorem append_left
    (h : Grows k cs cs')
    (ds : List Char) :
    Grows k (ds ++ cs) (ds ++ cs') := by
  have hAppend := (refl ds).append h
  rwa [Nat.zero_add] at hAppend

/- A common end does not grow. -/
theorem append_right
    (h : Grows k cs cs')
    (ds : List Char) :
    Grows k (cs ++ ds) (cs' ++ ds) :=
  h.append (refl ds)

end Grows

/- Text inside of blocks grows by blanks for each line feed. -/
theorem grows_shifted
    (n : Nat)
    (cs : List Char) :
    Grows (2 * n * Token.newlines cs) cs (shifted n cs) := by
  induction cs with
  | nil => exact Grows.refl []
  | cons c cs ih =>
      by_cases h : c = '\n'
      · subst h
        have hLine :
            Grows (2 * n) ['\n']
              ('\n' :: List.replicate (2 * n) ' ') := by
          constructor
          · simp
            omega
          · simp [Token.newlines, List.count_replicate]
        have hAll := hLine.append ih
        have hCount :
            2 * n + 2 * n * Token.newlines cs =
              2 * n * Token.newlines ('\n' :: cs) := by
          simp [Token.newlines, Nat.mul_add]
          omega
        rw [hCount] at hAll
        rw [shifted_newline]
        exact hAll
      · have hCount :
            Token.newlines (c :: cs) = Token.newlines cs := by
          unfold Token.newlines
          rw [List.count_cons_of_ne h]
        rw [shifted_cons h, hCount]
        exact ih.append_left [c]

/- Indented text grows by what the text grows by. -/
theorem Grows.indented
    (h : Grows k cs cs') :
    Grows k (indented cs) (indented cs') := by
  have hOld := grows_shifted 1 cs
  have hNew := grows_shifted 1 cs'
  have hShifted :
      Grows k (shifted 1 cs) (shifted 1 cs') := by
    constructor
    · rw [hNew.length_eq, hOld.length_eq, h.length_eq,
        h.newlines_eq]
      omega
    · rw [hNew.newlines_eq, hOld.newlines_eq, h.newlines_eq]
  exact hShifted.append_left [' ', ' ']

------------------------------------------------------------
-- Growth of Trees
------------------------------------------------------------

/- The blanks that tokens get inside of their blocks. -/
def excess
    (ps : List (Nat × Token)) : Nat :=
  (ps.map fun p =>
    2 * p.1 * Token.newlines p.2.lexeme.toList).sum

/- Tokens that are put together get what each of them gets. -/
theorem excess_append
    (ps qs : List (Nat × Token)) :
    excess (ps ++ qs) = excess ps + excess qs := by
  simp [excess]

/- The first token gets blanks for its own line feeds. -/
theorem excess_cons
    (p : Nat × Token)
    (ps : List (Nat × Token)) :
    excess (p :: ps) =
      2 * p.1 * Token.newlines p.2.lexeme.toList +
        excess ps := by
  simp [excess]

/- No tokens get no blanks. -/
theorem excess_nil :
    excess [] = 0 :=
  rfl

/- A token grows by the blanks that it gets. -/
theorem Token.grows_deepen
    (n : Nat)
    (t : Token) :
    Grows (2 * n * newlines t.lexeme.toList)
      t.lexeme.toList (t.deepen n).lexeme.toList := by
  unfold deepen
  rw [String.toList_ofList]
  exact grows_shifted n t.lexeme.toList

/- An expression grows by the blanks that its tokens get. -/
theorem Expr.grows_deepen
    (n : Nat)
    (e : Expr) :
    Grows (excess (e.tokensIn n)) e.chars
      (e.mapTokens (Token.deepen n)).chars := by
  induction e with
  | literal t => exact t.grows_deepen n
  | identifier t => exact t.grows_deepen n
  | grouping e ih =>
      exact (ih.append_left ['(']).append_right [')']
  | unary op e ih =>
      have hAll := (op.grows_deepen n).append ih
      rw [tokensIn, tokens, List.map_cons, excess_cons]
      exact hAll
  | binary left op right ihLeft ihRight =>
      have hOp := (op.grows_deepen n).append_left [' ']
      have hAll :=
        (ihLeft.append hOp).append (ihRight.append_left [' '])
      rw [tokensIn, tokens, List.map_append, List.map_cons,
        excess_append, excess_cons, ← Nat.add_assoc]
      exact hAll
  | logical left op right ihLeft ihRight =>
      have hOp := (op.grows_deepen n).append_left [' ']
      have hAll :=
        (ihLeft.append hOp).append (ihRight.append_left [' '])
      rw [tokensIn, tokens, List.map_append, List.map_cons,
        excess_append, excess_cons, ← Nat.add_assoc]
      exact hAll
  | assign target e ih =>
      have hTarget :=
        (target.grows_deepen n).append_right [' ', '=', ' ']
      have hAll := hTarget.append ih
      rw [tokensIn, tokens, List.map_cons, excess_cons]
      exact hAll
  | hole => exact Grows.refl []

mutual

/- A statement grows by the blanks that its tokens get. -/
theorem Stmt.grows_deepen
    (n : Nat) :
    ∀ s : Stmt,
      Grows (excess (s.tokens n)) s.chars
        (s.mapTokens Token.deepen n).chars
  | .expression e => by
      rw [Stmt.tokens, Stmt.mapTokens, Stmt.chars, Stmt.chars]
      exact (e.grows_deepen n).append_right _
  | .print e => by
      rw [Stmt.tokens, Stmt.mapTokens, Stmt.chars, Stmt.chars]
      exact ((e.grows_deepen n).append_left _).append_right _
  | .ifThen c s => by
      rw [Stmt.tokens, Stmt.mapTokens, Stmt.chars, Stmt.chars,
        excess_append]
      have hTest :=
        ((c.grows_deepen n).append_left
          ['i', 'f', ' ', '(']).append_right [')', ' ']
      exact hTest.append (Stmt.grows_deepen n s)
  | .ifElse c s t => by
      rw [Stmt.tokens, Stmt.mapTokens, Stmt.chars, Stmt.chars,
        excess_append, excess_append]
      have hTest :=
        ((c.grows_deepen n).append_left
          ['i', 'f', ' ', '(']).append_right [')', ' ']
      have hBody :=
        (hTest.append (Stmt.grows_deepen n s)).append_right
          ['\n', 'e', 'l', 's', 'e', ' ']
      exact hBody.append (Stmt.grows_deepen n t)
  | .block [] => by
      rw [Stmt.tokens, Stmt.mapTokens, Decl.allTokens,
        Decl.mapAllTokens]
      exact Grows.refl _
  | .block (d :: ds) => by
      rw [Stmt.tokens, Stmt.mapTokens, Decl.mapAllTokens,
        Stmt.chars_block_cons, Stmt.chars_block_cons,
        ← Decl.mapAllTokens]
      exact ((Decl.grows_blockChars (n + 1)
        (d :: ds)).append_right _).append_left ['{']
  | .hole => by
      rw [Stmt.tokens, Stmt.mapTokens]
      exact Grows.refl _

/- A declaration grows by the blanks that its tokens get. -/
theorem Decl.grows_deepen
    (n : Nat) :
    ∀ d : Decl,
      Grows (excess (d.tokens n)) d.chars
        (d.mapTokens Token.deepen n).chars
  | .declare name none => by
      rw [Decl.tokens, Decl.mapTokens, Decl.chars, Decl.chars,
        excess_cons]
      exact ((name.grows_deepen n).append_left
        ['v', 'a', 'r', ' ']).append_right _
  | .declare name (some e) => by
      rw [Decl.tokens, Decl.mapTokens, Decl.chars, Decl.chars,
        excess_cons]
      have hName :=
        ((name.grows_deepen n).append_left
          ['v', 'a', 'r', ' ']).append_right [' ', '=', ' ']
      exact (hName.append (e.grows_deepen n)).append_right _
  | .statement s => by
      rw [Decl.tokens, Decl.mapTokens, Decl.chars, Decl.chars]
      exact Stmt.grows_deepen n s
  | .hole => by
      rw [Decl.tokens, Decl.mapTokens]
      exact Grows.refl _

/- A block grows by the blanks that its tokens get. -/
theorem Decl.grows_blockChars
    (n : Nat) :
    ∀ ds : List Decl,
      Grows (excess (Decl.allTokens n ds))
        (Decl.blockChars ds)
        (Decl.blockChars
          (Decl.mapAllTokens Token.deepen n ds))
  | [] => by
      rw [Decl.allTokens, Decl.mapAllTokens]
      exact Grows.refl _
  | d :: ds => by
      rw [Decl.allTokens, Decl.mapAllTokens, Decl.blockChars,
        Decl.blockChars, excess_append]
      exact ((Decl.grows_deepen n d).indented.append_left
        ['\n']).append (Decl.grows_blockChars n ds)

end

/- A program grows by the blanks that its tokens get. -/
theorem Decl.grows_sequence
    (ds : List Decl) :
    Grows (excess (Decl.allTokens 0 ds)) (Decl.sequence ds)
      (Decl.sequence
        (ds.map fun d => d.mapTokens Token.deepen 0)) := by
  unfold sequence
  induction ds with
  | nil => exact Grows.refl []
  | cons d ds ih =>
      have hFirst := d.grows_deepen 0
      rw [Decl.allTokens, excess_append]
      cases ds with
      | nil =>
          simp only [List.map_cons, List.map_nil,
            List.intercalate_singleton]
          exact hFirst
      | cons e ds =>
          simp only [List.map_cons,
            List.intercalate_cons_cons] at ih ⊢
          exact (hFirst.append_right ['\n']).append ih

------------------------------------------------------------
-- Programs
------------------------------------------------------------

section Programs

variable {source : String} {ds es : List Decl}
variable {items : List (Except ParseError Decl)}
variable {groups depth : Nat} {endings : Endings}

/- The text of declarations that agree inside of blocks. -/
theorem Decl.sequence_of_map_unlined
    (h :
      es.map Decl.unlined =
        ds.map fun d => d.mapTokens Token.reread 0) :
    Decl.sequence es =
      Decl.sequence
        (ds.map fun d => d.mapTokens Token.deepen 0) := by
  have hNew : ∀ d : Decl,
      (d.mapTokens Token.reread 0).chars =
        (d.mapTokens Token.deepen 0).chars := by
    intro d
    have hSplit :
        d.mapTokens Token.reread 0 =
          (d.mapTokens Token.deepen 0).unlined :=
      (Decl.mapTokens_mapTokens (f := Token.deepen)
        (g := fun _ => Token.unlined) 0 d).symm
    rw [hSplit, Decl.chars_unlined]
  have hChars := congrArg (List.map Decl.chars) h
  simp only [List.map_map, Function.comp_def,
    Decl.chars_unlined, hNew] at hChars
  unfold sequence
  rw [hChars, List.map_map]
  rfl

/- Several declarations show what each of them shows. -/
theorem Decl.mem_allTokens
    {n : Nat}
    {p : Nat × Token} :
    p ∈ Decl.allTokens n ds ↔ ∃ d ∈ ds, p ∈ d.tokens n := by
  induction ds with
  | nil => simp [Decl.allTokens]
  | cons d ds ih => simp [Decl.allTokens, ih]

/- Tokens get no blanks if none has a line feed in a block. -/
theorem excess_eq_zero_iff
    {ps : List (Nat × Token)} :
    excess ps = 0 ↔
      ∀ p ∈ ps, 0 < p.1 → '\n' ∉ p.2.lexeme.toList := by
  induction ps with
  | nil => simp [excess_nil]
  | cons p ps ih =>
      rw [excess_cons, Nat.add_eq_zero_iff, ih,
        List.forall_mem_cons]
      apply and_congr_left
      intro _
      simp only [Token.newlines, Nat.mul_eq_zero,
        List.count_eq_zero, Nat.pos_iff_ne_zero]
      constructor
      · rintro ((hTwo | hNone) | hLine) hBlock
        · cases hTwo
        · exact absurd hNone hBlock
        · exact hLine
      · intro h
        by_cases hNone : p.1 = 0
        · exact .inl (.inr hNone)
        · exact .inr (h hNone)

/-
  The text of derived declarations is the same again exactly
  if they keep their lines.
-/
theorem Decl.sequence_deepen_eq_iff
    (h : ∀ d ∈ ds, d.IsDerived endings groups depth) :
    Decl.sequence
          (ds.map fun d => d.mapTokens Token.deepen 0) =
        Decl.sequence ds ↔
      ∀ d ∈ ds, d.KeepsLines := by
  constructor
  · intro hSame
    have hLength := (grows_sequence ds).length_eq
    rw [hSame] at hLength
    have hExcess : excess (Decl.allTokens 0 ds) = 0 := by
      omega
    rw [excess_eq_zero_iff] at hExcess
    intro d hd p hp hBlock
    rcases h d hd with ⟨ts, hProper, hDerives⟩
    have ht := hProper p.2 (hDerives.mem_of_mem_tokens hp)
    have hLexeme := hExcess p
      (Decl.mem_allTokens.mpr ⟨d, hd, hp⟩) hBlock
    exact (ht.isSpelled.not_mem_iff
      ht.isTrivia_eq_false).mp hLexeme
  · intro hLines
    have hMap :
        ds.map Decl.unlined =
          ds.map fun d => d.mapTokens Token.reread 0 := by
      apply List.map_congr_left
      intro d hd
      exact ((hLines d hd).mapTokens_reread (h d hd)).symm
    exact (Decl.sequence_of_map_unlined hMap).symm

/-
  The canonical text of a source has a canonical text of its
  own, and no errors.  The two are the same exactly if no
  text within a block holds a line feed.
-/
theorem Canonical.text_eq_iff
    (hSource : Decl.ofSource .standard source = .ok items) :
    ∃ first second : Canonical,
      Canonical.ofSource source = .ok first ∧
        Canonical.ofSource first.text = .ok second ∧
        second.errors = [] ∧
        (second.text = first.text ↔
          ∀ d ∈ Decl.declarationsOf items,
            d.KeepsLines) := by
  have hDerived := Decl.isDerived_of_ofSource hSource
  rcases Decl.ofSource_sequence hDerived with
    ⟨es, hRead, hMap⟩
  refine ⟨_, ⟨String.ofList (Decl.sequence es), []⟩,
    by rw [ofSource, hSource]; rfl, ?_, rfl, ?_⟩
  · rw [ofSource, hRead]
    simp only [Except.map, Decl.declarationsOf_map_ok,
      Decl.errorsOf_map_ok]
  · rw [← Decl.sequence_deepen_eq_iff hDerived,
      ← Decl.sequence_of_map_unlined hMap]
    exact String.ofList_inj

/- The text of a block with a text on one line stays. -/
theorem Canonical.text_eq_iff_block :
    ∃ items,
      Decl.ofSource .standard "\x7b print \"x\"; \x7d" =
          .ok items ∧
        ∃ first second : Canonical,
          Canonical.ofSource "\x7b print \"x\"; \x7d" = .ok first ∧
            Canonical.ofSource first.text = .ok second ∧
            second.errors = [] ∧
            (second.text = first.text ↔
              ∀ d ∈ Decl.declarationsOf items,
                d.KeepsLines) := by
  have hSource :
      Decl.ofSource .standard "\x7b print \"x\"; \x7d" =
        .ok [.ok (.statement (.block [.statement (.print
          (.literal
            ⟨.string, "\"x\"", .text "x", 1⟩))]))] := by
    cbv
  exact ⟨_, hSource, text_eq_iff hSource⟩

/- The text of a block with a text on two lines changes. -/
theorem Canonical.text_ne_block :
    ∃ first second : Canonical,
      Canonical.ofSource "\x7b \"a\nb\" \x7d" = .ok first ∧
        Canonical.ofSource first.text = .ok second ∧
        second.text ≠ first.text := by
  have hFirst :
      Canonical.ofSource "\x7b \"a\nb\" \x7d" =
        .ok ⟨"\x7b\n  \"a\n  b\";\n\x7d", []⟩ := by
    cbv
  have hSecond :
      Canonical.ofSource "\x7b\n  \"a\n  b\";\n\x7d" =
        .ok ⟨"\x7b\n  \"a\n    b\";\n\x7d", []⟩ := by
    cbv
  exact ⟨_, _, hFirst, hSecond, by decide⟩

end Programs

end Lox
