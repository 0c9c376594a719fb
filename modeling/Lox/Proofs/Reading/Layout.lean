import Lox.Proofs.Reading.Joining
import Lox.Proofs.Reading.Kinds
import Lox.Proofs.Scanning.Blanks
import Lox.Proofs.Printing.Program

/-
  How a program is laid out does not matter.

  Lines are carried along by the tokens, and nothing else is
  made of them: without its lines, a program is what is read
  from its tokens without theirs.  Blanks between the tokens
  of a source thus leave its program the same, lines aside.

  Key definitions include:
    * `ParseError.unlined`
    * `Decl.unlinedItem`

  Key theorems include:
    * `Decl.parseAll_unlined`
    * `Decl.ofSource_insertAt`
-/

namespace Lox

variable {limits : Limits} {line : Int}
variable {t t' : Token} {ts ts' : List Token}
variable {source blanks : String}

------------------------------------------------------------
-- Items Without Lines
------------------------------------------------------------

/- A syntax error regardless of its line. -/
def ParseError.unlined
    (e : ParseError) : ParseError :=
  { e with line := 0 }

/- An item of a program regardless of its lines. -/
def Decl.unlinedItem :
    Except ParseError Decl → Except ParseError Decl
  | .ok d => .ok d.unlined
  | .error e => .error e.unlined

/- An error that is alike is the same, its line aside. -/
theorem ParseError.Alike.unlined_eq
    {set set' : Setting}
    {p p' : ParseError}
    (h : Alike (fun t u => u = t.unlined) set set' p p') :
    p'.unlined = p.unlined := by
  cases h with
  | unexpectedToken hToken expected =>
      subst hToken
      rfl
  | wrongToken hToken expected =>
      subst hToken
      rfl
  | endOfInput => rfl
  | invalidTarget hToken target =>
      rw [target.eq_mapTokens,
        Expr.chars_mapTokens (f := Token.unlined)
          fun _ => rfl]
      rfl
  | nestingTooDeep hTokens limit => rfl

/- Items that are alike are the same, lines aside. -/
theorem Decl.ItemAlike.unlinedItem_eq
    {set set' : Setting}
    {item item' : Except ParseError Decl}
    (h :
      ItemAlike (fun t u => u = t.unlined) set set'
        item item') :
    unlinedItem item' = unlinedItem item := by
  cases h with
  | ok hDecl =>
      rw [hDecl.eq_mapTokens 0]
      exact congrArg Except.ok (unlined_unlined _)
  | error hError =>
      exact congrArg Except.error hError.unlined_eq

------------------------------------------------------------
-- Programs Without Lines
------------------------------------------------------------

namespace Decl

/- Without lines, a program is read from tokens without. -/
theorem parseAll_unlined
    (limits : Limits)
    (line line' : Int)
    (ts : List Token) :
    (parseAll ⟨limits, line'⟩ (ts.map Token.unlined)).map
        unlinedItem =
      (parseAll ⟨limits, line⟩ ts).map unlinedItem := by
  have hSettings :
      Setting.Alike (fun t u => u = t.unlined)
        ⟨limits, line⟩ ⟨limits, line'⟩ := by
    refine ⟨rfl, ?_⟩
    rintro t t' rfl
    rfl
  have hTokens :
      List.Forall₂ (fun t u => u = Token.unlined t) ts
        (ts.map Token.unlined) :=
    List.forall₂_map_right_iff.mpr
      (List.forall₂_same.mpr fun _ _ => rfl)
  have hItems :
      List.Forall₂ (· = ·)
        ((parseAll ⟨limits, line⟩ ts).map unlinedItem)
        ((parseAll ⟨limits, line'⟩
          (ts.map Token.unlined)).map unlinedItem) := by
    rw [List.forall₂_map_left_iff, List.forall₂_map_right_iff]
    exact (alike_parseAll hSettings hTokens).imp
      fun _ _ hItem => hItem.unlinedItem_eq.symm
  rw [List.forall₂_eq_eq_eq] at hItems
  exact hItems.symm

/- The same tokens, lines aside, are the same program. -/
theorem parseAll_of_map_unlined_eq
    (h : ts'.map Token.unlined = ts.map Token.unlined)
    (limits : Limits)
    (line line' : Int) :
    (parseAll ⟨limits, line'⟩ ts').map unlinedItem =
      (parseAll ⟨limits, line⟩ ts).map unlinedItem := by
  rw [← parseAll_unlined limits line' 0, h,
    parseAll_unlined limits line 0]

end Decl

------------------------------------------------------------
-- Sources With Blanks
------------------------------------------------------------

/- What is significant is the program's, or the end. -/
theorem Token.significant_scan
    (source : String) :
    significant (tokensOf (scan source)) =
      ofSource source ++
        [endOfInput (1 + newlines source.toList)] := by
  rw [ofSource_eq, scan_eq]
  unfold tokensOf significant
  rw [List.filterMap_append, List.filter_append]
  rfl

/-
  Blanks at the start of a source, at its end, or between any
  two of its tokens are irrelevant.  The source stays without
  lexical errors, and its significant tokens and its program
  stay the same, lines aside.
-/
theorem Decl.ofSource_insertAt
    (hScan : Token.errorsOf (Token.scan source) = [])
    (hBlank : ∀ c ∈ blanks.toList, Lexeme.isBlank c = true)
    (limits : Limits)
    (i : Nat) :
    Token.errorsOf
          (Token.scan (Token.insertAt i blanks source)) =
        [] ∧
      (Token.significant
          (Token.tokensOf
            (Token.scan
              (Token.insertAt i blanks source)))).map
          Token.unlined =
        (Token.significant
          (Token.tokensOf (Token.scan source))).map
          Token.unlined ∧
      ∃ items items',
        Decl.ofSource limits source = .ok items ∧
          Decl.ofSource limits
              (Token.insertAt i blanks source) =
            .ok items' ∧
          items'.map unlinedItem = items.map unlinedItem := by
  rcases Token.map_unlined_insertAt hScan hBlank i with
    ⟨hErrors, hTokens⟩
  refine ⟨hErrors, ?_, _, _,
    ofSource_of_errorsOf hScan limits,
    ofSource_of_errorsOf hErrors limits,
    parseAll_of_map_unlined_eq hTokens limits _ _⟩
  rw [Token.significant_scan, Token.significant_scan,
    List.map_append, List.map_append, hTokens]
  rfl

/-
  Behind a comment, blanks become a part of it up to a line
  feed.
-/
theorem Decl.ofSource_insertAt_comment :
    Token.insertAt 2 "\t\n" "a//b\n!c" = "a//b\t\n\n!c" ∧
      Token.errorsOf (Token.scan "a//b\n!c") = [] ∧
      (∀ c ∈ "\t\n".toList, Lexeme.isBlank c = true) ∧
      Token.errorsOf
          (Token.scan
            (Token.insertAt 2 "\t\n" "a//b\n!c")) =
        [] ∧
      ∃ items items',
        Decl.ofSource .standard "a//b\n!c" = .ok items ∧
          Decl.ofSource .standard
              (Token.insertAt 2 "\t\n" "a//b\n!c") =
            .ok items' ∧
          items'.map unlinedItem = items.map unlinedItem := by
  have hInsert :
      Token.insertAt 2 "\t\n" "a//b\n!c" =
        "a//b\t\n\n!c" := by
    rw [← String.toList_inj]
    decide +kernel
  have hScan :
      Token.errorsOf (Token.scan "a//b\n!c") = [] := by
    decide +kernel
  have hBlank :
      ∀ c ∈ "\t\n".toList, Lexeme.isBlank c = true := by
    rw [← List.all_eq_true]
    decide +kernel
  have h := ofSource_insertAt hScan hBlank .standard 2
  exact ⟨hInsert, hScan, hBlank, h.1, h.2.2⟩

end Lox
