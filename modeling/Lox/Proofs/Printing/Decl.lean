import Lox.Proofs.Printing.Expr

/-
  The text of statements and declarations is scanned as
  tokens from which they are derived, in canonical form.

  Key definitions include:
    * `Stmt.Rereads`
    * `Decl.Rereads`
    * `Decl.AllReread`

  Key theorems include:
    * `Stmt.Derives.scans`
    * `Decl.Derives.scans`
    * `Decl.DerivesAll.scans`
-/

namespace Lox

variable {rest : List Char} {c : Char} {n : Nat}
variable {k : Kind}
variable {depth groups : Nat}
variable {endings : Endings}
variable {ts : List Token} {e : Expr}

------------------------------------------------------------
-- Definitions
------------------------------------------------------------

/-
  Tokens from which a statement is derived that agrees with
  another inside of blocks.
-/
def Stmt.Rereads
    (groups depth n : Nat)
    (s : Stmt)
    (ts : List Token) : Prop :=
  ∃ s', Stmt.Derives .canonical groups depth ts s' ∧
    s'.mapTokens (fun _ => Token.unlined) n =
      s.mapTokens Token.reread n

/-
  Tokens from which a declaration is derived that agrees
  with another inside of blocks.
-/
def Decl.Rereads
    (groups depth n : Nat)
    (d : Decl)
    (ts : List Token) : Prop :=
  ∃ d', Decl.Derives .canonical groups depth ts d' ∧
    d'.mapTokens (fun _ => Token.unlined) n =
      d.mapTokens Token.reread n

/-
  Tokens from which declarations are derived that agree with
  others inside of blocks.
-/
def Decl.AllReread
    (groups depth n : Nat)
    (ds : List Decl)
    (ts : List Token) : Prop :=
  ∃ ds', Decl.DerivesAll .canonical groups depth ts ds' ∧
    Decl.mapAllTokens (fun _ => Token.unlined) n ds' =
      Decl.mapAllTokens Token.reread n ds

------------------------------------------------------------
-- Parts of Statements
------------------------------------------------------------

/- A reserved word and a blank are scanned as the word. -/
theorem scans_word
    {more : List Char}
    (hWord : Kind.ofWord (String.ofList (c :: more)) = k)
    (hFirst : Lexeme.startsWord c = true)
    (hMore : more.all Lexeme.inWord = true)
    (hKind : k.isTrivia = false) :
    Scans (c :: more ++ [' ']) rest (IsOne k) := by
  have hSpells := Lexeme.spells_word hWord hFirst hMore
  have hComment : k ≠ .comment := by
    rintro rfl
    cases hKind
  have hRest : Lexeme.Delimits (' ' :: rest) :=
    Lexeme.delimits_cons rfl rest
  have hParts := hSpells.parts_of_delimits hComment hRest
  apply (hSpells.scans hKind hParts).append
  rintro _ ⟨line, rfl⟩
  apply (scans_blank rfl).mono
  rintro _ rfl
  exact ⟨_, rfl, rfl⟩

/- Tokens of an expression that agrees, and a semicolon. -/
def Expr.RereadsTerminated
    (groups depth n : Nat)
    (e : Expr)
    (ts : List Token) : Prop :=
  ∃ us vs, ts = us ++ vs ∧ IsOne .semicolon vs ∧
    e.Rereads .expression depth groups n us

/- An expression is scanned along with its semicolon. -/
theorem Expr.Derives.scans_terminated
    (h : Expr.Derives .expression depth groups ts e)
    (hProper : ∀ t ∈ ts, t.IsProper)
    (n : Nat) :
    Scans (shifted n (e.chars ++ [';'])) rest
      (e.RereadsTerminated groups depth n) := by
  have hSemicolon : shifted n [';'] = [';'] :=
    shifted_of_not_mem (by decide) n
  rw [shifted_append, hSemicolon]
  apply (h.scans hProper n
    (Lexeme.delimits_cons rfl _)).append
  intro us hInner
  apply (scans_single rfl rfl).mono
  intro vs hEnd
  exact ⟨us, vs, rfl, hEnd, hInner⟩

/- Tokens of a condition that agrees, up to its parenthesis. -/
def Expr.RereadsCondition
    (groups depth n : Nat)
    (c : Expr)
    (ts : List Token) : Prop :=
  ∃ word opening us closing,
    ts = word :: opening :: us ++ [closing] ∧
      word.kind = .ifWord ∧ opening.kind = .leftParen ∧
      closing.kind = .rightParen ∧
      c.Rereads .expression depth groups n us

/- A condition is scanned along with its parentheses. -/
theorem Expr.Derives.scans_condition
    (h : Expr.Derives .expression depth groups ts e)
    (hProper : ∀ t ∈ ts, t.IsProper)
    (n : Nat) :
    Scans
      (shifted n
        (['i', 'f', ' ', '('] ++ e.chars ++ [')', ' ']))
      rest (e.RereadsCondition groups depth n) := by
  have hOpen :
      shifted n ['i', 'f', ' ', '('] =
        ['i', 'f'] ++ [' '] ++ ['('] :=
    shifted_of_not_mem (by decide) n
  have hClose : shifted n [')', ' '] = [')', ' '] :=
    shifted_of_not_mem (by decide) n
  rw [List.append_assoc, shifted_append, shifted_append,
    hOpen, hClose, List.append_assoc, List.singleton_append]
  apply (scans_word (k := .ifWord) (by decide) rfl rfl
    rfl).append
  rintro _ ⟨word, rfl, hWord⟩
  apply Scans.cons (scans_single rfl rfl)
  rintro _ ⟨opening, rfl, hOpening⟩
  apply (h.scans hProper n
    (Lexeme.delimits_cons rfl _)).append
  intro us hInner
  apply Scans.cons (scans_single rfl rfl)
  rintro _ ⟨closing, rfl, hClosing⟩
  apply (scans_blank rfl).mono
  rintro _ rfl
  exact ⟨word, opening, us, closing, rfl, hWord, hOpening,
    hClosing, hInner⟩

/- The word and the name that start a declaration. -/
def Token.IsDeclared
    (n : Nat)
    (name : Token)
    (ts : List Token) : Prop :=
  ∃ word name',
    ts = [word, name'] ∧ word.kind = .varWord ∧
      name'.kind = .identifier ∧
      name'.unlined = name.reread n

/- The start of a declaration is scanned in one piece. -/
theorem Token.IsProper.scans_declared
    {name : Token}
    (h : name.IsProper)
    (hName : name.kind = .identifier)
    (n : Nat)
    (hRest : Lexeme.Delimits rest) :
    Scans
      (shifted n
        (['v', 'a', 'r', ' '] ++ name.lexeme.toList))
      rest (name.IsDeclared n) := by
  have hVar :
      shifted n ['v', 'a', 'r', ' '] =
        ['v', 'a', 'r'] ++ [' '] :=
    shifted_of_not_mem (by decide) n
  rw [shifted_append, hVar]
  apply (scans_word (k := .varWord) (by decide) rfl rfl
    rfl).append
  rintro _ ⟨word, rfl, hWord⟩
  apply (h.scans_of_delimits n hRest).mono
  rintro _ ⟨name', rfl, hKind, hMap⟩
  exact ⟨word, name', rfl, hWord, hKind.trans hName, hMap⟩

/- The text of a block is that of its lines, in braces. -/
theorem Stmt.chars_block_cons
    (d : Decl)
    (ds : List Decl) :
    (Stmt.block (d :: ds)).chars =
      '{' :: (Decl.blockChars (d :: ds) ++ ['\n', '}']) := by
  rw [Stmt.chars, Decl.blockChars]
  rfl

/- A block is scanned if what it consists of is. -/
theorem Stmt.scans_block
    {ds : List Decl}
    (h :
      ∀ rest, Scans (shifted n (Decl.blockChars ds)) rest
        (Decl.AllReread groups depth (n + 1) ds)) :
    Scans (shifted n (Stmt.block ds).chars) rest
      ((Stmt.block ds).Rereads groups (depth + 1) n) := by
  cases ds with
  | nil =>
      have hBraces : shifted n ['{', '}'] = ['{', '}'] :=
        shifted_of_not_mem (by decide) n
      rw [chars, hBraces]
      apply Scans.cons (scans_single rfl rfl)
      rintro _ ⟨opening, rfl, hOpening⟩
      apply (scans_single rfl rfl).mono
      rintro _ ⟨closing, rfl, hClosing⟩
      refine ⟨.block [], ?_, ?_⟩
      · exact .block hOpening .nil hClosing rfl
      · rw [mapTokens, mapTokens, Decl.mapAllTokens,
          Decl.mapAllTokens]
  | cons d ds =>
      have hEnd :
          shifted n ['\n', '}'] =
            '\n' :: (List.replicate (2 * n) ' ' ++ ['}']) :=
        shifted_newline n _
      rw [chars_block_cons, shifted_cons (by decide),
        shifted_append, hEnd]
      apply Scans.cons (scans_single rfl rfl)
      rintro _ ⟨opening, rfl, hOpening⟩
      apply (h _).append
      rintro us ⟨ds', hBody, hMap⟩
      refine (Scans.blanks ?_ (2 * n)).blank rfl
      apply (scans_single rfl rfl).mono
      rintro _ ⟨closing, rfl, hClosing⟩
      refine ⟨.block ds', ?_, ?_⟩
      · exact .block hOpening hBody hClosing rfl
      · rw [mapTokens, mapTokens, hMap]

------------------------------------------------------------
-- Statements and Declarations
------------------------------------------------------------

mutual

/-
  The text of a statement is scanned as tokens from which
  the statement is derived.
-/
theorem Stmt.Derives.scans
    {depth : Nat} {ts : List Token} {s : Stmt}
    {rest : List Char}
    (h : Stmt.Derives endings groups depth ts s)
    (hProper : ∀ t ∈ ts, t.IsProper)
    (n : Nat) :
    Scans (shifted n s.chars) rest
      (s.Rereads groups depth n) := by
  cases h with
  | expression inner hEnd =>
      rw [Stmt.chars]
      apply (inner.scans_terminated
        (fun t ht => hProper t (by simp [ht])) n).mono
      rintro _ ⟨us, vs, rfl, hSemicolon, e', hInner, hMap⟩
      refine ⟨.expression e', .expression hInner hSemicolon, ?_⟩
      rw [Stmt.mapTokens, Stmt.mapTokens, hMap]
  | print hWord inner hEnd =>
      have hPrint :
          shifted n ['p', 'r', 'i', 'n', 't', ' '] =
            ['p', 'r', 'i', 'n', 't'] ++ [' '] :=
        shifted_of_not_mem (by decide) n
      rw [Stmt.chars, List.append_assoc, shifted_append,
        hPrint]
      apply (scans_word (k := .printWord) (by decide) rfl
        rfl rfl).append
      rintro _ ⟨word, rfl, hWord'⟩
      apply (inner.scans_terminated
        (fun t ht => hProper t (by simp [ht])) n).mono
      rintro _ ⟨us, vs, rfl, hSemicolon, e', hInner, hMap⟩
      refine ⟨.print e', ?_, ?_⟩
      · rw [← List.append_assoc]
        exact .print hWord' hInner hSemicolon
      · rw [Stmt.mapTokens, Stmt.mapTokens, hMap]
  | block hOpening body hClosing hEnd =>
      exact Stmt.scans_block fun rest =>
        Decl.DerivesAll.scans body
          (fun t ht => hProper t (by simp [ht])) n
  | ifThen hWord hOpening test hClosing first =>
      rw [Stmt.chars, shifted_append]
      apply (test.scans_condition
        (fun t ht => hProper t (by simp [ht])) n).append
      rintro _ ⟨word, opening, us, closing, rfl, hWord',
        hOpening', hClosing', c', hTest, hTestMap⟩
      apply (Stmt.Derives.scans first
        (fun t ht => hProper t (by simp [ht])) n).mono
      rintro vs ⟨s', hFirst, hFirstMap⟩
      refine ⟨.ifThen c' s', ?_, ?_⟩
      · rw [List.append_assoc]
        exact .ifThen hWord' hOpening' hTest hClosing' hFirst
      · rw [Stmt.mapTokens, Stmt.mapTokens, hTestMap,
          hFirstMap]
  | @ifElse _ _ _ _ c body other _ _ _ _ hWord hOpening test
      hClosing first hBody hSeparator second =>
      have hElse :
          shifted n ['\n', 'e', 'l', 's', 'e', ' '] =
            '\n' :: (List.replicate (2 * n) ' ' ++
              (['e', 'l', 's', 'e'] ++ [' '])) := by
        rw [shifted_newline]
        rfl
      have hChars :
          (Stmt.ifElse c body other).chars =
            ['i', 'f', ' ', '('] ++ c.chars ++ [')', ' '] ++
              (body.chars ++
                (['\n', 'e', 'l', 's', 'e', ' '] ++
                  other.chars)) := by
        rw [Stmt.chars, List.append_assoc, List.append_assoc]
      rw [hChars, shifted_append, shifted_append n body.chars,
        shifted_append n _ other.chars, hElse]
      apply (test.scans_condition
        (fun t ht => hProper t (by simp [ht])) n).append
      rintro _ ⟨word, opening, us, closing, rfl, hWord',
        hOpening', hClosing', c', hTest, hTestMap⟩
      apply (Stmt.Derives.scans first
        (fun t ht => hProper t (by simp [ht])) n).append
      rintro vs ⟨body', hFirst, hFirstMap⟩
      have hBody' : body'.endsOpen = false := by
        rw [← Stmt.endsOpen_mapTokens n body', hFirstMap,
          Stmt.endsOpen_mapTokens]
        exact hBody
      apply Scans.append ((Scans.blanks (scans_word
        (k := .elseWord) (by decide) rfl rfl rfl)
        (2 * n)).blank rfl)
      rintro _ ⟨separator, rfl, hSeparator'⟩
      apply (Stmt.Derives.scans second
        (fun t ht => hProper t (by simp [ht])) n).mono
      rintro ws ⟨other', hSecond, hSecondMap⟩
      refine ⟨.ifElse c' body' other', ?_, ?_⟩
      · have hDerives := Stmt.Derives.ifElse hWord'
          hOpening' hTest hClosing' hFirst hBody'
          hSeparator' hSecond
        simpa using hDerives
      · rw [Stmt.mapTokens, Stmt.mapTokens, hTestMap,
          hFirstMap, hSecondMap]

/-
  The text of a declaration is scanned as tokens from which
  the declaration is derived.
-/
theorem Decl.Derives.scans
    {depth : Nat} {ts : List Token} {d : Decl}
    {rest : List Char}
    (h : Decl.Derives endings groups depth ts d)
    (hProper : ∀ t ∈ ts, t.IsProper)
    (n : Nat) :
    Scans (shifted n d.chars) rest
      (d.Rereads groups depth n) := by
  cases h with
  | @declare _ _ word name hWord hName hEnd =>
      have hSemicolon : shifted n [';'] = [';'] :=
        shifted_of_not_mem (by decide) n
      rw [Decl.chars, shifted_append, hSemicolon]
      apply ((hProper name (by simp)).scans_declared hName n
        (Lexeme.delimits_cons rfl _)).append
      rintro _ ⟨word', name', rfl, hWord', hName', hNameMap⟩
      apply (scans_single rfl rfl).mono
      intro us hEnd'
      refine ⟨.declare name' none, ?_, ?_⟩
      · exact .declare hWord' hName' hEnd'
      · rw [Decl.mapTokens, Decl.mapTokens, hNameMap]
  | @declareWith _ ts _ e word name equals hWord hName hEquals
      inner hEnd =>
      have hSign :
          shifted n [' ', '=', ' '] = [' ', '=', ' '] :=
        shifted_of_not_mem (by decide) n
      rw [Decl.chars, List.append_assoc, List.append_assoc,
        shifted_append, shifted_append n [' ', '=', ' '],
        hSign]
      apply ((hProper name (by simp)).scans_declared hName n
        (Lexeme.delimits_cons rfl _)).append
      rintro _ ⟨word', name', rfl, hWord', hName', hNameMap⟩
      apply Scans.blank rfl
      apply Scans.cons scans_equal
      rintro _ ⟨equals', rfl, hEquals'⟩
      apply Scans.blank rfl
      apply (inner.scans_terminated
        (fun t ht => hProper t (by simp [ht])) n).mono
      rintro _ ⟨us, vs, rfl, hSemicolon, e', hInner, hMap⟩
      refine ⟨.declare name' (some e'), ?_, ?_⟩
      · have hEnd' : Endings.canonical.simple vs := hSemicolon
        have hDerives := Decl.Derives.declareWith hWord'
          hName' hEquals' hInner hEnd'
        simpa using hDerives
      · rw [Decl.mapTokens, Decl.mapTokens, hNameMap, hMap]
  | statement inner =>
      rw [Decl.chars]
      apply (Stmt.Derives.scans inner hProper n).mono
      rintro us ⟨s', hInner, hMap⟩
      refine ⟨.statement s', .statement hInner, ?_⟩
      rw [Decl.mapTokens, Decl.mapTokens, hMap]

/-
  The text of a block is scanned as tokens from which its
  declarations are derived.
-/
theorem Decl.DerivesAll.scans
    {depth : Nat} {ts : List Token} {ds : List Decl}
    {rest : List Char}
    (h : Decl.DerivesAll endings groups depth ts ds)
    (hProper : ∀ t ∈ ts, t.IsProper)
    (n : Nat) :
    Scans (shifted n (Decl.blockChars ds)) rest
      (Decl.AllReread groups depth (n + 1) ds) := by
  cases h with
  | nil =>
      rw [Decl.blockChars]
      apply Scans.nil.mono
      rintro _ rfl
      refine ⟨[], .nil, ?_⟩
      rw [Decl.mapAllTokens, Decl.mapAllTokens]
  | cons first more =>
      rw [Decl.blockChars, List.cons_append, shifted_newline,
        shifted_append, shifted_indented]
      refine (Scans.blanks ?_ (2 * n)).blank rfl
      apply Scans.append
        (((Decl.Derives.scans first
          (fun t ht => hProper t (by simp [ht]))
          (n + 1)).blank rfl).blank rfl)
      rintro us ⟨d', hFirst, hFirstMap⟩
      apply (Decl.DerivesAll.scans more
        (fun t ht => hProper t (by simp [ht])) n).mono
      rintro vs ⟨ds', hMore, hMoreMap⟩
      refine ⟨d' :: ds', .cons hFirst hMore, ?_⟩
      rw [Decl.mapAllTokens, Decl.mapAllTokens, hFirstMap,
        hMoreMap]

end

end Lox
