import Lox.Proofs.Scanning.Token

/-
  Scanning a text part by part.

  Whether a part is scanned on its own depends on what
  stands after it.  Parts that are put together are scanned
  as the tokens of the one and of the other.

  Key definitions include:
    * `Token.scanChars`
    * `Scans`

  Key theorems include:
    * `Scans.append`
    * `Lexeme.Spells.scans`
-/

namespace Lox

variable {cs ds rest : List Char} {c : Char}
variable {k : Kind} {l : Literal}
variable {P Q : List Token → Prop}

/- Scan characters of which the first is on a line. -/
def Token.scanChars
    (line : Int)
    (cs : List Char) : List (Except LexError Token) :=
  scanLexemes line (Lexeme.cut cs)

/-
  Characters that, in front of others, are scanned as tokens
  of which the significant ones are as `P` says.
-/
def Scans
    (cs rest : List Char)
    (P : List Token → Prop) : Prop :=
  ∀ line, ∃ ts after,
    Token.scanChars line (cs ++ rest) =
        ts.map .ok ++ Token.scanChars after rest ∧
      (∀ t ∈ ts, t.kind ≠ .endOfInput) ∧
      P (Token.significant ts)

/- Spelled characters that are parted are the next token. -/
theorem Lexeme.Spells.scanChars_append
    (h : Spells cs k l)
    (hParts : Parts cs rest)
    (line : Int) :
    Token.scanChars line (cs ++ rest) =
      .ok ⟨k, String.ofList cs, l, line⟩ ::
        Token.scanChars (line + Token.newlines cs) rest := by
  cases cs with
  | nil => cases h
  | cons c more =>
      have hCut := cut_append_of_parts (w := ⟨c, more⟩) hParts
      have hRead := h.read (w := ⟨c, more⟩) rfl line
      unfold Token.scanChars
      change Token.scanLexemes line
        (cut ((⟨c, more⟩ : Lexeme).chars ++ rest)) = _
      rw [hCut, Token.scanLexemes, hRead]
      rfl

/- A meaningful token is scanned as itself. -/
theorem Lexeme.Spells.scans
    (h : Spells cs k l)
    (hKind : k.isTrivia = false)
    (hParts : Parts cs rest) :
    Scans cs rest fun us =>
      ∃ line, us = [⟨k, String.ofList cs, l, line⟩] := by
  intro line
  refine ⟨[⟨k, String.ofList cs, l, line⟩], _,
    h.scanChars_append hParts line, ?_, line, ?_⟩
  · intro t ht
    rw [List.mem_singleton.mp ht]
    exact h.ne_endOfInput
  · simp [Token.significant, hKind]

/- A blank is scanned as nothing significant. -/
theorem scans_blank
    (h : Lexeme.isBlank c = true) :
    Scans [c] rest fun us => us = [] := by
  intro line
  have hSpells : Lexeme.Spells [c] .blank .absent :=
    .blank h
  have hParts : Lexeme.Parts [c] rest := by
    intro d more hChars
    cases hChars
    exact Lexeme.following_of_isBlank h _
  refine ⟨[⟨.blank, String.ofList [c], .absent, line⟩], _,
    hSpells.scanChars_append hParts line, ?_, rfl⟩
  intro t ht
  rw [List.mem_singleton.mp ht]
  exact hSpells.ne_endOfInput

namespace Scans

/- No characters are scanned as nothing. -/
theorem nil :
    Scans [] rest fun us => us = [] :=
  fun line => ⟨[], line, rfl, List.forall_mem_nil _, rfl⟩

/- What is known of the tokens may be weakened. -/
theorem mono
    (h : Scans cs rest P)
    (hWeak : ∀ us, P us → Q us) :
    Scans cs rest Q := by
  intro line
  rcases h line with ⟨ts, after, hScan, hEnd, hP⟩
  exact ⟨ts, after, hScan, hEnd, hWeak _ hP⟩

/- Parts are scanned one after the other. -/
theorem append
    (h : Scans cs (ds ++ rest) P)
    (hNext :
      ∀ us, P us → Scans ds rest fun vs => Q (us ++ vs)) :
    Scans (cs ++ ds) rest Q := by
  intro line
  rcases h line with ⟨ts, mid, hFirst, hFirstEnd, hP⟩
  rcases hNext _ hP mid with
    ⟨us, after, hSecond, hSecondEnd, hQ⟩
  refine ⟨ts ++ us, after, ?_, ?_, ?_⟩
  · rw [List.append_assoc, hFirst, hSecond, List.map_append,
      List.append_assoc]
  · intro t ht
    rcases List.mem_append.mp ht with ht | ht
    · exact hFirstEnd t ht
    · exact hSecondEnd t ht
  · unfold Token.significant at hQ ⊢
    rw [List.filter_append]
    exact hQ

/- A character is scanned, and then what stands after it. -/
theorem cons
    (h : Scans [c] (cs ++ rest) P)
    (hNext :
      ∀ us, P us → Scans cs rest fun vs => Q (us ++ vs)) :
    Scans (c :: cs) rest Q :=
  append h hNext

/- A blank in front changes nothing. -/
theorem blank
    (hBlank : Lexeme.isBlank c = true)
    (h : Scans cs rest P) :
    Scans (c :: cs) rest P := by
  apply cons (scans_blank hBlank)
  rintro us rfl
  exact h

/- Blanks in front change nothing. -/
theorem blanks
    (h : Scans cs rest P)
    (n : Nat) :
    Scans (List.replicate n ' ' ++ cs) rest P := by
  induction n with
  | zero => exact h
  | succ n ih =>
      rw [List.replicate_succ, List.cons_append]
      exact ih.blank rfl

end Scans

/- What a scan found, followed by the end of the input. -/
theorem Token.scan_ofList
    (h : Scans cs [] P) :
    ∃ ts after,
      scan (String.ofList cs) =
          (ts ++ [endOfInput after]).map .ok ∧
        (∀ t ∈ ts, t.kind ≠ .endOfInput) ∧
        P (significant ts) := by
  rcases h 1 with ⟨ts, after, hScan, hEnd, hP⟩
  refine ⟨ts, after, ?_, hEnd, hP⟩
  unfold scanChars at hScan
  unfold scan scanFrom
  rw [String.toList_ofList, List.map_append]
  rw [List.append_nil] at hScan
  rw [hScan, Lexeme.cut, scanLexemes]
  rfl

/- Tokens alone are all there is in a scan. -/
theorem Token.tokensOf_map_ok
    (ts : List Token) :
    tokensOf (ts.map .ok) = ts := by
  induction ts with
  | nil => rfl
  | cons t ts ih =>
      rw [List.map_cons]
      exact congrArg (List.cons t) ih

/- Tokens alone have no errors among them. -/
theorem Token.errorsOf_map_ok
    (ts : List Token) :
    errorsOf (ts.map .ok) = [] := by
  induction ts with
  | nil => rfl
  | cons t ts ih =>
      rw [List.map_cons]
      exact ih

/- A program is read from all that stands before the end. -/
theorem Decl.body_append_endOfInput
    {ts : List Token}
    (h : ∀ t ∈ ts, t.kind ≠ .endOfInput)
    (line : Int) :
    body (Token.significant (ts ++ [Token.endOfInput line])) =
      Token.significant ts := by
  unfold body Token.significant
  rw [List.filter_append, List.takeWhile_append_of_pos]
  · exact List.append_nil _
  · intro t ht
    simpa using h t (List.mem_filter.mp ht).1

/-
  A source whose characters are scanned is read from the
  significant tokens that they are scanned as.
-/
theorem Decl.ofSource_ofList
    (h : Scans cs [] P)
    (limits : Limits) :
    ∃ line ts,
      P ts ∧
        Decl.ofSource limits (String.ofList cs) =
          .ok (parseAll ⟨limits, line⟩ ts) := by
  rcases Token.scan_ofList h with
    ⟨ts, after, hScan, hEnd, hP⟩
  refine ⟨endLine
      (Token.significant (ts ++ [Token.endOfInput after])),
    Token.significant ts, hP, ?_⟩
  unfold ofSource
  simp only [hScan, Token.errorsOf_map_ok,
    Token.tokensOf_map_ok]
  unfold programWithin
  rw [body_append_endOfInput hEnd]

end Lox
