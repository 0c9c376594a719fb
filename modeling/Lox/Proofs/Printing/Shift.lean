import Lox.Proofs.Scanning.Token
import Lox.Tree.Text

/-
  What indentation does to text.

  Every block around a declaration puts two more blanks in
  front of each of its lines.  The lines inside a text are
  no exception, so that its token becomes another one.

  Key definitions include:
    * `shifted`
    * `Token.deepen`

  Key theorems include:
    * `shifted_indented`
    * `Lexeme.Spells.deepen`
-/

namespace Lox

variable {cs ds : List Char} {c : Char} {n : Nat}

------------------------------------------------------------
-- Characters
------------------------------------------------------------

/- Text inside of blocks: line feeds are followed by blanks. -/
def shifted
    (n : Nat)
    (cs : List Char) : List Char :=
  cs.flatMap fun c =>
    if c = '\n' then '\n' :: List.replicate (2 * n) ' '
    else [c]

/- Text is shifted part by part. -/
theorem shifted_append
    (n : Nat)
    (cs ds : List Char) :
    shifted n (cs ++ ds) = shifted n cs ++ shifted n ds :=
  List.flatMap_append

/- What is no line feed stays. -/
theorem shifted_cons
    (h : c ≠ '\n')
    (n : Nat)
    (cs : List Char) :
    shifted n (c :: cs) = c :: shifted n cs := by
  simp [shifted, h]

/- A line feed is followed by blanks. -/
theorem shifted_newline
    (n : Nat)
    (cs : List Char) :
    shifted n ('\n' :: cs) =
      '\n' ::
        (List.replicate (2 * n) ' ' ++ shifted n cs) := by
  simp [shifted]

/- Text without line feeds stays. -/
theorem shifted_of_not_mem
    (h : '\n' ∉ cs)
    (n : Nat) :
    shifted n cs = cs := by
  induction cs with
  | nil => rfl
  | cons c cs ih =>
      rw [List.mem_cons, not_or] at h
      rw [shifted_cons (Ne.symm h.1), ih h.2]

/- Outside of blocks, text stays. -/
theorem shifted_zero
    (cs : List Char) :
    shifted 0 cs = cs := by
  induction cs with
  | nil => rfl
  | cons c cs ih =>
      by_cases h : c = '\n'
      · subst h
        rw [shifted_newline, ih]
        rfl
      · rw [shifted_cons h, ih]

/- An indented text is inside of one more block. -/
theorem shifted_indented
    (n : Nat)
    (cs : List Char) :
    shifted n (indented cs) = ' ' :: ' ' :: shifted (n + 1) cs := by
  have hInner :
      ∀ cs, shifted n (shifted 1 cs) = shifted (n + 1) cs := by
    intro cs
    induction cs with
    | nil => rfl
    | cons c cs ih =>
        by_cases h : c = '\n'
        · subst h
          have hBlanks :
              shifted n (List.replicate (2 * 1) ' ') =
                List.replicate (2 * 1) ' ' :=
            shifted_of_not_mem (by decide) n
          rw [shifted_newline, shifted_newline,
            shifted_append, hBlanks, ih, shifted_newline,
            ← List.append_assoc,
            List.replicate_append_replicate,
            ← Nat.mul_add]
        · rw [shifted_cons h, shifted_cons h, shifted_cons h,
            ih]
  rw [← hInner]
  change shifted n (' ' :: ' ' :: shifted 1 cs) = _
  rw [shifted_cons (by decide), shifted_cons (by decide)]

------------------------------------------------------------
-- Tokens
------------------------------------------------------------

/- The literal that a token has inside of blocks. -/
def Literal.deepen
    (n : Nat) : Literal → Literal
  | .text s => .text (String.ofList (shifted n s.toList))
  | l => l

/- A literal that is no text stays. -/
theorem Literal.deepen_of_ne_text
    {l : Literal}
    (h : ∀ s, l ≠ .text s)
    (n : Nat) :
    l.deepen n = l := by
  cases l with
  | text s => exact absurd rfl (h s)
  | _ => rfl

/- Whether a literal is no text with a line feed. -/
def Literal.isOneLine : Literal → Bool
  | .text s => !s.toList.contains '\n'
  | _ => true

/- Only texts can hold a line feed. -/
theorem Literal.isOneLine_iff
    {l : Literal} :
    l.isOneLine = true ↔
      ∀ s, l = .text s → '\n' ∉ s.toList := by
  cases l with
  | text s => simp [isOneLine]
  | _ => simp [isOneLine]

/- The token that is read off a token inside of blocks. -/
def Token.deepen
    (n : Nat)
    (t : Token) : Token :=
  { t with
    lexeme := String.ofList (shifted n t.lexeme.toList)
    literal := t.literal.deepen n }

/- A token regardless of its line. -/
def Token.unlined
    (t : Token) : Token :=
  { t with line := 0 }

/- A token without line feeds stays. -/
theorem Token.deepen_of_not_mem
    {t : Token}
    (hLexeme : '\n' ∉ t.lexeme.toList)
    (hLine : t.literal.isOneLine = true)
    (n : Nat) :
    t.deepen n = t := by
  have hLiteral : t.literal.deepen n = t.literal := by
    cases hl : t.literal with
    | text s =>
        have hText := Literal.isOneLine_iff.mp hLine s hl
        rw [Literal.deepen, shifted_of_not_mem hText,
          String.ofList_toList]
    | _ => rfl
  unfold deepen
  rw [shifted_of_not_mem hLexeme, hLiteral,
    String.ofList_toList]

/- Outside of blocks, a token stays. -/
theorem Token.deepen_zero
    (t : Token) :
    t.deepen 0 = t := by
  have hLiteral : t.literal.deepen 0 = t.literal := by
    cases t.literal with
    | text s =>
        rw [Literal.deepen, shifted_zero, String.ofList_toList]
    | _ => rfl
  unfold deepen
  rw [shifted_zero, hLiteral, String.ofList_toList]

namespace Lexeme

variable {k : Kind} {l : Literal}

/- The literal of a word is no text. -/
theorem wordLiteral_ne_text
    (k : Kind)
    (s : String) :
    wordLiteral k ≠ .text s := by
  unfold wordLiteral
  split
  all_goals nofun

/- The literal of a number is no text. -/
theorem ne_text_of_number?
    {m : Literal}
    (h : number? cs = some m)
    (s : String) :
    m ≠ .text s := by
  unfold number? at h
  split at h
  · cases h
  · split at h
    · rcases Option.map_eq_some_iff.mp h with ⟨x, -, rfl⟩
      nofun
    · split at h
      · cases h
      · rcases Option.map_eq_some_iff.mp h with ⟨x, -, rfl⟩
        nofun

/-
  What a meaningful token is spelled by either is a text, or
  it holds no line feed and its literal is no text.
-/
theorem Spells.text_or_not_mem
    (h : Spells cs k l)
    (hKind : k.isTrivia = false) :
    (∃ body, (∀ d ∈ body, d ≠ '"') ∧
      cs = '"' :: (body ++ ['"']) ∧ k = .string ∧
        l = .text (String.ofList body)) ∨
      '\n' ∉ cs ∧ ∀ s, l ≠ .text s := by
  cases h with
  | blank hBlank => cases hKind
  | slash => exact .inr ⟨by decide, nofun⟩
  | comment => cases hKind
  | single hSingle =>
      refine .inr ⟨?_, nofun⟩
      intro hMem
      rw [← List.mem_singleton.mp hMem] at hSingle
      cases hSingle
  | alone hPaired =>
      refine .inr ⟨?_, nofun⟩
      intro hMem
      rw [← List.mem_singleton.mp hMem] at hPaired
      cases hPaired
  | withEqual hPaired =>
      refine .inr ⟨?_, nofun⟩
      intro hMem
      rcases List.mem_cons.mp hMem with hFirst | hSecond
      · rw [← hFirst] at hPaired
        cases hPaired
      · cases List.mem_singleton.mp hSecond
  | text hBody => exact .inl ⟨_, hBody, rfl, rfl, rfl⟩
  | number hFirst hMore hNumber =>
      refine .inr ⟨?_, ne_text_of_number? hNumber⟩
      intro hMem
      rcases List.mem_cons.mp hMem with rfl | hTail
      · cases hFirst
      · cases hMore _ hTail
  | word hFirst hMore =>
      refine .inr ⟨?_, wordLiteral_ne_text _⟩
      intro hMem
      rcases List.mem_cons.mp hMem with rfl | hTail
      · cases hFirst
      · cases hMore _ hTail

/- What spells a meaningful token does so inside of blocks. -/
theorem Spells.deepen
    (h : Spells cs k l)
    (hKind : k.isTrivia = false)
    (n : Nat) :
    Spells (shifted n cs) k (l.deepen n) := by
  rcases h.text_or_not_mem hKind with
    ⟨body, hBody, rfl, rfl, rfl⟩ | ⟨hLine, hLiteral⟩
  · have hShifted : ∀ d ∈ shifted n body, d ≠ '"' := by
      intro d hd
      rcases List.mem_flatMap.mp hd with ⟨c, hc, hIn⟩
      split at hIn
      · rcases List.mem_cons.mp hIn with rfl | hBlank
        · decide
        · rw [List.eq_of_mem_replicate hBlank]
          decide
      · rw [List.mem_singleton.mp hIn]
        exact hBody c hc
    rw [shifted_cons (by decide), shifted_append,
      Literal.deepen, String.toList_ofList]
    exact .text hShifted
  · rw [shifted_of_not_mem hLine,
      Literal.deepen_of_ne_text hLiteral]
    exact h

/-
  What spells a meaningful token holds a line feed only in
  its text.
-/
theorem Spells.not_mem_iff
    (h : Spells cs k l)
    (hKind : k.isTrivia = false) :
    '\n' ∉ cs ↔ l.isOneLine = true := by
  rw [Literal.isOneLine_iff]
  rcases h.text_or_not_mem hKind with
    ⟨body, -, rfl, -, rfl⟩ | ⟨hLine, hLiteral⟩
  · simp
  · exact ⟨fun _ s hs => absurd hs (hLiteral s),
      fun _ => hLine⟩

end Lexeme

end Lox
