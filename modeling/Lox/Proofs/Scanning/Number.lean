import Lox.Proofs.Double.Bits
import Lox.Proofs.Scanning.Pieces

/-
  Number literals are accepted when they fit.

  Where a digit is reached, all digits and points that follow
  it are scanned as one item.  It is a number if there is at
  most one point among them, if an integer has not too many
  digits, and if their decimal value is rounded to a finite
  double; otherwise it is an error.  Scanning goes on behind
  them in either case.

  Key definitions include:
    * `Lexeme.decimal`
    * `Lexeme.Fits`
    * `Lexeme.IsRun`

  Key theorems include:
    * `Lexeme.digitsValue_div_eq_decimal`
    * `Lexeme.exists_number?_iff`
    * `Lexeme.exists_isFinite_of_number?`
    * `Token.scanFrom_of_isRun`
-/

namespace Lox

namespace Lexeme

variable {cs run rest : List Char}

------------------------------------------------------------
-- Decimal Values
------------------------------------------------------------

/- What the digits behind a point stand for. -/
def fraction : List Char → ℚ
  | [] => 0
  | c :: cs => ((c.toNat - '0'.toNat : Nat) + fraction cs) / 10

/-
  What digits with at most one point among them stand for:
  the integer in front of the point, and the fraction behind
  it.
-/
def decimal
    (run : List Char) : ℚ :=
  Nat.ofDigitChars 10 (run.takeWhile (· != '.')) 0 +
    fraction (run.dropWhile (· != '.')).tail

/- A fraction is an integer over a power of ten. -/
theorem fraction_mul_pow
    (cs : List Char) :
    fraction cs * 10 ^ cs.length =
      Nat.ofDigitChars 10 cs 0 := by
  induction cs with
  | nil => simp [fraction]
  | cons c cs ih =>
      rw [Nat.ofDigitChars_cons,
        Nat.ofDigitChars_eq_ofDigitChars_zero, fraction,
        List.length_cons]
      push_cast
      rw [← ih]
      ring

/- Digits in a row, with a point put between them. -/
theorem ofDigitChars_append_div
    (cs ds : List Char) :
    (Nat.ofDigitChars 10 (cs ++ ds) 0 : ℚ) / 10 ^ ds.length =
      Nat.ofDigitChars 10 cs 0 + fraction ds := by
  have hPower : (10 : ℚ) ^ ds.length ≠ 0 :=
    pow_ne_zero _ (by decide)
  rw [Nat.ofDigitChars_append,
    Nat.ofDigitChars_eq_ofDigitChars_zero, div_eq_iff hPower,
    add_mul, fraction_mul_pow]
  push_cast
  ring

/- Without points, what goes on with a number are digits. -/
theorem isDigit_of_inNumber
    {c : Char}
    (h : inNumber c = true)
    (hPoint : c ≠ '.') :
    c.isDigit = true := by
  unfold inNumber at h
  simpa [hPoint] using h

/- The digits of a run are those on both sides of its point. -/
theorem filter_isDigit
    (hRun : ∀ c ∈ run, inNumber c = true)
    (hCount : run.count '.' ≤ 1) :
    run.filter Char.isDigit =
      run.takeWhile (· != '.') ++
        (run.dropWhile (· != '.')).tail := by
  induction run with
  | nil => rfl
  | cons c run ih =>
      rw [List.forall_mem_cons] at hRun
      by_cases hPoint : c = '.'
      · subst hPoint
        have hNone : '.' ∉ run := by
          rw [← List.count_eq_zero]
          rw [List.count_cons_self] at hCount
          omega
        have hDigits : ∀ d ∈ run, d.isDigit = true :=
          fun d hd => isDigit_of_inNumber (hRun.2 d hd)
            fun hPoint => hNone (hPoint ▸ hd)
        rw [List.filter_cons_of_neg (by decide),
          List.filter_eq_self.mpr hDigits]
        rfl
      · have hDigit := isDigit_of_inNumber hRun.1 hPoint
        rw [List.count_cons_of_ne hPoint] at hCount
        rw [List.filter_cons_of_pos hDigit,
          List.takeWhile_cons_of_pos (by simpa),
          List.dropWhile_cons_of_pos (by simpa),
          ih hRun.2 hCount]
        rfl

/- The digits of a run, over its places, are its value. -/
theorem digitsValue_div_eq_decimal
    (hRun : ∀ c ∈ run, inNumber c = true)
    (hCount : run.count '.' ≤ 1) :
    (digitsValue run : ℚ) / (10 ^ places run : Nat) =
      decimal run := by
  have hPlaces :
      places run =
        (run.dropWhile (· != '.')).tail.length := by
    unfold places
    rw [List.drop_one]
  have hDigits :
      digitsValue run =
        Nat.ofDigitChars 10 (run.filter Char.isDigit) 0 :=
    rfl
  rw [hDigits, filter_isDigit hRun hCount, hPlaces,
    Nat.cast_pow, Nat.cast_ofNat]
  exact ofDigitChars_append_div _ _

------------------------------------------------------------
-- Literals
------------------------------------------------------------

/- Whether a run of digits and points fits a double. -/
structure Fits
    (run : List Char) : Prop where
  count_le : run.count '.' ≤ 1
  length_le : '.' ∉ run → run.length ≤ 4300
  decimal_lt : decimal run < 2 ^ 1024 - 2 ^ 970

/- Digits alone are all digits there are. -/
theorem digitsValue_of_notMem
    (hRun : ∀ c ∈ run, inNumber c = true)
    (hPoint : '.' ∉ run) :
    digitsValue run = Nat.ofDigitChars 10 run 0 := by
  have hDigits : ∀ c ∈ run, c.isDigit = true :=
    fun c hc => isDigit_of_inNumber (hRun c hc)
      fun hOther => hPoint (hOther ▸ hc)
  unfold digitsValue
  rw [List.filter_eq_self.mpr hDigits]
  rfl

/- Digits alone have no places. -/
theorem places_of_notMem
    (hPoint : '.' ∉ run) :
    places run = 0 := by
  have hTest : ∀ c ∈ run, (c != '.') = true := by
    intro c hc
    rw [bne_iff_ne]
    rintro rfl
    exact hPoint hc
  unfold places
  rw [(span_self hTest).2]
  rfl

/- Digits alone, if there are not too many, are an integer. -/
theorem number?_of_notMem
    (hLength : run.length ≤ 4300)
    (hPoint : '.' ∉ run) :
    number? run =
      (Double.ofRatio? (digitsValue run) 1).map
        fun _ => .integer (digitsValue run) := by
  have hCount : ¬ 1 < run.count '.' := by
    rw [List.count_eq_zero.mpr hPoint]
    decide
  have hMost : ¬ mostDigits < run.length :=
    Nat.not_lt.mpr hLength
  unfold number?
  rw [if_neg hCount, if_neg hPoint, if_neg hMost]

/- Whether a run has a literal is up to its rounding then. -/
theorem number?_eq_map
    (hCount : run.count '.' ≤ 1)
    (hLength : '.' ∉ run → run.length ≤ 4300) :
    ∃ literal,
      number? run =
        (Double.ofRatio? (digitsValue run)
          (10 ^ places run)).map literal := by
  by_cases hPoint : '.' ∈ run
  · refine ⟨.decimal, ?_⟩
    unfold number?
    rw [if_neg (Nat.not_lt.mpr hCount), if_pos hPoint]
    rfl
  · rw [number?_of_notMem (hLength hPoint) hPoint,
      places_of_notMem hPoint]
    exact ⟨_, rfl⟩

/- Runs have a literal exactly when they fit. -/
theorem exists_number?_iff
    (hRun : ∀ c ∈ run, inNumber c = true) :
    (∃ l, number? run = some l) ↔ Fits run := by
  have hRatio (hCount : run.count '.' ≤ 1) :
      (∃ x,
          Double.ofRatio? (digitsValue run)
            (10 ^ places run) = some x) ↔
        decimal run < 2 ^ 1024 - 2 ^ 970 := by
    rw [← digitsValue_div_eq_decimal hRun hCount]
    exact Double.exists_ofRatio?_iff
      (Nat.pow_pos (by decide))
  constructor
  · rintro ⟨l, hl⟩
    have hCount : run.count '.' ≤ 1 := by
      by_contra hMany
      unfold number? at hl
      rw [if_pos (Nat.not_le.mp hMany)] at hl
      cases hl
    have hLength : '.' ∉ run → run.length ≤ 4300 := by
      intro hPoint
      by_contra hMany
      have hMost : mostDigits < run.length :=
        Nat.not_le.mp hMany
      unfold number? at hl
      rw [if_neg (Nat.not_lt.mpr hCount), if_neg hPoint,
        if_pos hMost] at hl
      cases hl
    rcases number?_eq_map hCount hLength with ⟨f, hf⟩
    rw [hf, Option.map_eq_some_iff] at hl
    rcases hl with ⟨x, hx, -⟩
    exact ⟨hCount, hLength, (hRatio hCount).mp ⟨x, hx⟩⟩
  · rintro ⟨hCount, hLength, hLess⟩
    rcases number?_eq_map hCount hLength with ⟨f, hf⟩
    rcases (hRatio hCount).mpr hLess with ⟨x, hx⟩
    exact ⟨f x, by rw [hf, hx, Option.map_some]⟩

/- The literal of digits alone is their exact value. -/
theorem number?_eq_integer
    (hRun : ∀ c ∈ run, inNumber c = true)
    (hFits : Fits run)
    (hPoint : '.' ∉ run) :
    number? run =
      some (.integer (Nat.ofDigitChars 10 run 0)) := by
  have hLiteral :=
    number?_of_notMem (hFits.length_le hPoint) hPoint
  rcases (exists_number?_iff hRun).mpr hFits with ⟨l, hl⟩
  rw [hl] at hLiteral ⊢
  rcases Option.map_eq_some_iff.mp hLiteral.symm with
    ⟨x, -, rfl⟩
  rw [digitsValue_of_notMem hRun hPoint]

/- A literal of a number stands for a finite double. -/
theorem exists_isFinite_of_number?
    {l : Literal}
    (h : number? cs = some l) :
    ∃ x, l.value = .ok (.number x) ∧ x.isFinite = true := by
  unfold number? at h
  split at h
  · cases h
  · split at h
    · rcases Option.map_eq_some_iff.mp h with ⟨x, hx, rfl⟩
      exact ⟨x, rfl, Double.isFinite_of_ofRatio? hx⟩
    · split at h
      · cases h
      · rcases Option.map_eq_some_iff.mp h with ⟨x, hx, rfl⟩
        exact ⟨x, Literal.value_natCast hx,
          Double.isFinite_of_ofRatio? hx⟩

------------------------------------------------------------
-- Runs
------------------------------------------------------------

/-
  A run of digits and points that starts with a digit and
  does not go on in the rest.
-/
structure IsRun
    (run rest : List Char) : Prop where
  isDigit_head : ∃ c ∈ run.head?, c.isDigit = true
  inNumber : ∀ c ∈ run, inNumber c = true
  stops : ∀ c ∈ rest.head?, Lexeme.inNumber c = false

/- A run is one piece. -/
theorem IsRun.exists_cut_append
    (h : IsRun run rest) :
    ∃ w : Lexeme,
      w.chars = run ∧ w.first.isDigit = true ∧
        cut (run ++ rest) = w :: cut rest := by
  rcases h.isDigit_head with ⟨c, hc, hDigit⟩
  cases run with
  | nil => cases hc
  | cons d more =>
      cases hc
      have hParts : Parts (c :: more) rest := by
        rintro d after hChars
        cases hChars
        rcases
            span_append
              (fun d hd =>
                h.inNumber d (List.mem_cons_of_mem c hd))
              h.stops with
          ⟨hTake, hDrop⟩
        rw [following_of_isDigit hDigit, hTake, hDrop]
      exact ⟨⟨c, more⟩, rfl, hDigit,
        cut_append_of_parts (w := ⟨c, more⟩) hParts⟩

/- There are no line feeds in a run. -/
theorem IsRun.newlines_eq_zero
    (h : IsRun run rest) :
    Token.newlines run = 0 := by
  unfold Token.newlines
  rw [List.count_eq_zero]
  intro hMem
  have hNumber := h.inNumber '\n' hMem
  revert hNumber
  decide

/- What spells a number has a literal. -/
theorem Spells.number?_eq_some
    {k : Kind}
    {l : Literal}
    (h : Spells cs k l)
    (hKind : k = .number) :
    number? cs = some l := by
  cases h with
  | blank hBlank => cases hKind
  | slash => cases hKind
  | comment => cases hKind
  | single hSingle =>
      subst hKind
      unfold single? at hSingle
      split at hSingle
      all_goals cases hSingle
  | alone hPaired =>
      subst hKind
      unfold paired? at hPaired
      split at hPaired
      all_goals cases hPaired
  | withEqual hPaired =>
      subst hKind
      unfold paired? at hPaired
      split at hPaired
      all_goals cases hPaired
  | text hBody => cases hKind
  | number hFirst hMore hNumber => exact hNumber
  | @word c more hFirst hMore =>
      have hMem :=
        Kind.ofWord_mem (String.ofList (c :: more))
      rw [hKind] at hMem
      exact absurd hMem (by decide)

end Lexeme

------------------------------------------------------------
-- Scans
------------------------------------------------------------

namespace Token

/- Lexemes are scanned one after the other. -/
theorem scanLexemes_append
    (line : Int)
    (ws vs : List Lexeme) :
    scanLexemes line (ws ++ vs) =
      readAll line ws ++
        scanLexemes
          (line + newlines (ws.flatMap Lexeme.chars)) vs := by
  induction ws generalizing line with
  | nil => simp [readAll, newlines]
  | cons w ws ih =>
      rw [List.cons_append, scanLexemes, readAll, ih,
        add_newlines_cons]
      rfl

/-
  What a run on a line is scanned as: a number exactly when
  it fits, and an error that shows the run otherwise.  Digits
  alone have their exact value as the literal.
-/
structure IsItemOf
    (run : List Char)
    (line : Int)
    (item : Except LexError Token) : Prop where
  ok_iff :
    (∃ l, item = .ok ⟨.number, String.ofList run, l, line⟩) ↔
      Lexeme.Fits run
  error :
    ¬ Lexeme.Fits run →
      item =
        .error ⟨line, .invalidNumber (String.ofList run)⟩
  integer :
    Lexeme.Fits run → '.' ∉ run →
      item =
        .ok ⟨.number, String.ofList run,
          .integer (Nat.ofDigitChars 10 run 0), line⟩

/- What is read off a run. -/
theorem isItemOf_read
    {w : Lexeme}
    (hDigit : w.first.isDigit = true)
    (hRun : ∀ c ∈ w.chars, Lexeme.inNumber c = true)
    (line : Int) :
    IsItemOf w.chars line (w.read line) := by
  have hFits := Lexeme.exists_number?_iff hRun
  have hRead := Lexeme.read_of_isDigit hDigit line
  cases hNumber : Lexeme.number? w.chars with
  | none =>
      have hNot : ¬ Lexeme.Fits w.chars := by
        rw [← hFits, hNumber]
        nofun
      rw [hNumber] at hRead
      rw [hRead]
      exact {
        ok_iff := iff_of_false nofun hNot
        error := fun _ => rfl
        integer := fun hOther => absurd hOther hNot }
  | some l =>
      have hOk : Lexeme.Fits w.chars := hFits.mp ⟨l, hNumber⟩
      rw [hNumber] at hRead
      rw [hRead]
      exact {
        ok_iff := iff_of_true ⟨l, rfl⟩ hOk
        error := fun hNot => absurd hOk hNot
        integer := by
          intro _ hPoint
          rw [Lexeme.number?_eq_integer hRun hOk hPoint,
            Option.some.injEq] at hNumber
          rw [← hNumber]
          rfl }

/-
  Where scanning reaches a run of digits and points, it finds
  one item for the whole run and goes on behind it.  The
  literal of any number in a scan stands for a finite double.
-/
theorem scanFrom_of_isRun
    (line : Int)
    (source : String) :
    (∀ before run rest,
      Lexeme.cut source.toList =
          before ++ Lexeme.cut (run ++ rest) →
        Lexeme.IsRun run rest →
          ∃ start item,
            start =
                line +
                  newlines (before.flatMap Lexeme.chars) ∧
              scanFrom line source =
                readAll line before ++
                  item ::
                    scanFrom start (String.ofList rest) ∧
              IsItemOf run start item) ∧
      ∀ t, .ok t ∈ scanFrom line source →
        t.kind = .number →
          ∃ x,
            t.literal.value = .ok (.number x) ∧
              x.isFinite = true := by
  constructor
  · intro before run rest hCut hRun
    rcases hRun.exists_cut_append with
      ⟨w, rfl, hDigit, hPiece⟩
    refine ⟨_, _, rfl, ?_,
      isItemOf_read hDigit hRun.inNumber _⟩
    unfold scanFrom
    rw [hCut, hPiece, scanLexemes_append, scanLexemes,
      hRun.newlines_eq_zero, String.toList_ofList,
      Nat.cast_zero, add_zero]
  · intro t ht hKind
    have hSpelled := isSpelled_of_mem_scanLexemes
      (fun w hw => Lexeme.isPiece_of_mem_cut hw) ht
    rw [hKind] at hSpelled
    have hOther : Kind.number ≠ .endOfInput := by decide
    exact Lexeme.exists_isFinite_of_number?
      ((hSpelled.resolve_right hOther).number?_eq_some hKind)

/- Zeros in front of an integer do not count. -/
theorem scanFrom_of_isRun_zeros :
    scanFrom 1 "-007" =
        readAll 1 [⟨'-', []⟩] ++
          .ok ⟨.number, "007", .integer 7, 1⟩ ::
            scanFrom 1 "" ∧
      ∃ x,
        (Literal.integer 7).value = .ok (.number x) ∧
          x.isFinite = true := by
  have hCut :
      Lexeme.cut "-007".toList =
        [⟨'-', []⟩] ++
          Lexeme.cut (['0', '0', '7'] ++ []) := by
    decide +kernel
  have hRun : Lexeme.IsRun ['0', '0', '7'] [] :=
    ⟨⟨'0', rfl, rfl⟩, List.all_eq_true.mp rfl, nofun⟩
  have hPoint : '.' ∉ ['0', '0', '7'] := by decide
  have hFits : Lexeme.Fits ['0', '0', '7'] := by
    refine ⟨by decide, fun _ => by simp, ?_⟩
    have hSeven : Lexeme.decimal ['0', '0', '7'] = 7 := by
      decide +kernel
    have hSplit : (2 : ℚ) ^ 1024 = 2 ^ 54 * 2 ^ 970 := by
      rw [← pow_add]
    have hLeast : (1 : ℚ) ≤ 2 ^ 970 :=
      one_le_pow₀ one_le_two
    rw [hSeven, hSplit]
    generalize (2 : ℚ) ^ 970 = half at hLeast ⊢
    linarith
  have hStart :
      (1 : Int) +
          newlines (List.flatMap Lexeme.chars [⟨'-', []⟩]) =
        1 := by
    decide
  have hText : String.ofList ['0', '0', '7'] = "007" := by
    decide
  have hValue :
      Nat.ofDigitChars 10 ['0', '0', '7'] 0 = 7 := by
    decide
  obtain ⟨hRuns, hNumbers⟩ := scanFrom_of_isRun 1 "-007"
  obtain ⟨start, item, hLine, hScan, hItem⟩ :=
    hRuns _ _ _ hCut hRun
  rw [hStart] at hLine
  subst hLine
  rw [hItem.integer hFits hPoint, hText, hValue,
    Nat.cast_ofNat] at hScan
  have hMem :
      .ok ⟨.number, "007", .integer 7, 1⟩ ∈
        scanFrom 1 "-007" := by
    rw [hScan]
    exact List.mem_append_right _ List.mem_cons_self
  have hFinite := hNumbers _ hMem rfl
  dsimp only at hFinite
  exact ⟨hScan, hFinite⟩

end Token

end Lox
