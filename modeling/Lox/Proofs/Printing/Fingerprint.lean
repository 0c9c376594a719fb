import Lox.Proofs.Printing.Program

/-
  The text of a declaration tells the declaration.

  Declarations that were read off sources have the same text
  only if they agree apart from lines.  Their text is read as
  one of them with the blanks that its blocks put into texts;
  with the number of blocks around a token known, these
  blanks can be taken out again.

  Key definitions include:
    * `unshifted`
    * `Token.undeepen`

  Key theorems include:
    * `unshifted_shifted`
    * `Decl.unlined_eq_of_reread`
    * `Decl.text_eq_text_iff`
-/

namespace Lox

variable {limits : Limits} {first second : String}
variable {items items' : List (Except ParseError Decl)}
variable {groups depth : Nat} {endings endings' : Endings}
variable {d d' : Decl}

------------------------------------------------------------
-- Taking Blanks Out
------------------------------------------------------------

/-
  Text without the blanks that blocks put behind its line
  feeds.
-/
def unshifted
    (n : Nat) : List Char → List Char
  | [] => []
  | c :: cs =>
      if c = '\n' then c :: unshifted n (cs.drop (2 * n))
      else c :: unshifted n cs
termination_by cs => cs.length
decreasing_by
  · simp only [List.length_drop, List.length_cons]
    omega
  · simp only [List.length_cons]
    omega

/- Blanks that were put in are taken out. -/
theorem unshifted_shifted
    (n : Nat)
    (cs : List Char) :
    unshifted n (shifted n cs) = cs := by
  induction cs with
  | nil =>
      change unshifted n [] = []
      rw [unshifted]
  | cons c cs ih =>
      by_cases hLine : c = '\n'
      · subst hLine
        have hDrop :
            (List.replicate (2 * n) ' ' ++
                shifted n cs).drop (2 * n) =
              shifted n cs :=
          List.drop_left' List.length_replicate
        rw [shifted_newline, unshifted, if_pos rfl, hDrop, ih]
      · rw [shifted_cons hLine, unshifted, if_neg hLine, ih]

/- The literal of a token, out of the blocks around it. -/
def Literal.undeepen
    (n : Nat) : Literal → Literal
  | .text s => .text (String.ofList (unshifted n s.toList))
  | l => l

/- A literal comes out of the blocks as it was. -/
theorem Literal.undeepen_deepen
    (n : Nat)
    (l : Literal) :
    (l.deepen n).undeepen n = l := by
  cases l with
  | text s =>
      rw [deepen, undeepen, String.toList_ofList,
        unshifted_shifted, String.ofList_toList]
  | _ => rfl

/- A token, out of the blocks around it. -/
def Token.undeepen
    (n : Nat)
    (t : Token) : Token :=
  { t with
    lexeme := String.ofList (unshifted n t.lexeme.toList)
    literal := t.literal.undeepen n }

/- What is read off a token tells all of it but its line. -/
theorem Token.undeepen_reread
    (n : Nat)
    (t : Token) :
    (t.reread n).undeepen n = t.unlined := by
  unfold reread deepen undeepen unlined
  rw [String.toList_ofList, unshifted_shifted,
    String.ofList_toList, Literal.undeepen_deepen]

------------------------------------------------------------
-- Declarations
------------------------------------------------------------

namespace Decl

/- What is read off a declaration tells it, lines aside. -/
theorem unlined_eq_of_reread
    (h :
      d.mapTokens Token.reread 0 =
        d'.mapTokens Token.reread 0) :
    d.unlined = d'.unlined := by
  have hOut :
      ∀ d : Decl,
        (d.mapTokens Token.reread 0).mapTokens
            Token.undeepen 0 =
          d.unlined := by
    intro d
    rw [mapTokens_mapTokens]
    apply mapTokens_congr
    intro p _
    exact p.2.undeepen_reread p.1
  rw [← hOut d, h, hOut d']

/- The text of a declaration is read as it, inside of blocks. -/
theorem IsDerived.exists_ofSource
    (h :
      d.IsDerived endings limits.groupRoom
        limits.depthRoom) :
    ∃ c : Decl,
      Decl.ofSource limits (String.ofList d.chars) =
          .ok [.ok c] ∧
        c.unlined = d.mapTokens Token.reread 0 := by
  have hAll :
      ∀ c ∈ [d],
        c.IsDerived endings limits.groupRoom
          limits.depthRoom := by
    intro c hc
    rw [List.mem_singleton.mp hc]
    exact h
  rcases ofSource_sequence hAll with ⟨ds, hRead, hMap⟩
  rcases List.map_eq_singleton_iff.mp hMap with
    ⟨c, rfl, hc⟩
  have hChars : sequence [d] = d.chars := by
    unfold sequence
    rw [List.map_singleton, List.intercalate_singleton]
  rw [hChars] at hRead
  exact ⟨c, hRead, hc⟩

/- Derived declarations with the same characters agree. -/
theorem IsDerived.unlined_eq_of_chars_eq
    (h :
      d.IsDerived endings limits.groupRoom
        limits.depthRoom)
    (h' :
      d'.IsDerived endings' limits.groupRoom
        limits.depthRoom)
    (hChars : d.chars = d'.chars) :
    d.unlined = d'.unlined := by
  rcases h.exists_ofSource with ⟨c, hRead, hc⟩
  rcases h'.exists_ofSource with ⟨c', hRead', hc'⟩
  rw [hChars, hRead'] at hRead
  cases hRead
  exact unlined_eq_of_reread (hc.symm.trans hc')

/- A derived declaration has a text. -/
theorem IsDerived.text_eq
    (h : d.IsDerived endings groups depth) :
    d.text = .ok (String.ofList d.chars) := by
  rcases h with ⟨ts, hProper, hDerives⟩
  unfold text
  rw [(hDerives.wellFormed hProper).missing?_eq_none]
  rfl

/-
  Declarations that were read off sources have texts, which
  are the same exactly if the declarations agree, lines
  aside.  Texts with line feeds may stand in their blocks.
-/
theorem text_eq_text_iff
    (hFirst : Decl.ofSource limits first = .ok items)
    (hSecond : Decl.ofSource limits second = .ok items')
    (hd : d ∈ declarationsOf items)
    (hd' : d' ∈ declarationsOf items') :
    (∃ text, d.text = .ok text) ∧
      (∃ text, d'.text = .ok text) ∧
        (d.text = d'.text ↔ d.unlined = d'.unlined) := by
  have hDerived := isDerived_of_ofSource hFirst d hd
  have hDerived' := isDerived_of_ofSource hSecond d' hd'
  refine ⟨⟨_, hDerived.text_eq⟩, ⟨_, hDerived'.text_eq⟩, ?_⟩
  rw [hDerived.text_eq, hDerived'.text_eq, Except.ok.injEq,
    String.ofList_inj]
  constructor
  · exact hDerived.unlined_eq_of_chars_eq hDerived'
  · intro hSame
    rw [← d.chars_unlined, hSame, d'.chars_unlined]

/-
  Texts on two lines are told apart although each of them
  gets blanks in its block.
-/
theorem text_eq_text_iff_indented :
    ∃ d d' items items',
      Decl.ofSource .standard "\x7b \"a\nb\" \x7d" =
          .ok items ∧
        Decl.ofSource .standard "\x7b \"a\n  b\" \x7d" =
          .ok items' ∧
        d ∈ declarationsOf items ∧
        d' ∈ declarationsOf items' ∧
        (∃ text, d.text = .ok text) ∧
          (∃ text, d'.text = .ok text) ∧
            (d.text = d'.text ↔ d.unlined = d'.unlined) := by
  have hFirst :
      Decl.ofSource .standard "\x7b \"a\nb\" \x7d" =
        .ok [.ok (.statement (.block [.statement
          (.expression (.literal
            ⟨.string, "\"a\nb\"", .text "a\nb", 1⟩))]))] := by
    cbv
  have hSecond :
      Decl.ofSource .standard "\x7b \"a\n  b\" \x7d" =
        .ok [.ok (.statement (.block [.statement
          (.expression (.literal
            ⟨.string, "\"a\n  b\"", .text "a\n  b",
              1⟩))]))] := by
    cbv
  exact ⟨_, _, _, _, hFirst, hSecond, List.mem_cons_self,
    List.mem_cons_self,
    text_eq_text_iff hFirst hSecond List.mem_cons_self
      List.mem_cons_self⟩

end Decl

end Lox
