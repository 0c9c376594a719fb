import Lox.Proofs.Printing.Tokens
import Lox.Proofs.Reading.Alike
import Lox.Proofs.Scanning.Joining

/-
  Reading two sources that are joined by a line feed.

  If the last token of the first source is a semicolon or a
  closing brace, its declarations end there, unless the
  second source goes on with an `else` or with the semicolon
  of a block.  What is read after that is the program of the
  second source, further down.

  Key definitions include:
    * `Decl.lower`
    * `Decl.lowerItem`
    * `Decl.Joinable`

  Key theorems include:
    * `Expr.Alike.eq_mapTokens`
    * `Decl.parseAll_append`
    * `Decl.parseAll_lower`
    * `Decl.Joinable.ofSource_append_newline`
-/

namespace Lox

variable {set : Setting} {limits : Limits}
variable {groups depth : Nat} {n line : Int}
variable {ts rest : List Token}
variable {after after' : Option Kind}
variable {f : Token → Token}
variable {e e' : Expr} {ds : List Decl}
variable {first second : String}

------------------------------------------------------------
-- The End of the First Source
------------------------------------------------------------

/- Without tokens, no declarations are read. -/
theorem Decl.ReadsAll.eq_nil
    (h : ReadsAll groups depth [] after ds) :
    ds = [] := by
  generalize hTokens : ([] : List Token) = ts at h
  cases h with
  | nil => rfl
  | cons first more =>
      rcases first.derives.eq_cons with ⟨t, us, rfl, -⟩
      cases hTokens

/- Declarations are read the same before what ends them. -/
theorem Decl.ReadsAll.before
    (h : ReadsAll groups depth ts after ds)
    (hBefore : EndedBefore ts after')
    (hElse : ¬ after' = some .elseWord) :
    ReadsAll groups depth ts after' ds := by
  induction ds generalizing ts with
  | nil =>
      cases h
      exact .nil
  | cons d ds ih =>
      cases h with
      | @cons _ ts us _ _ _ first more =>
          cases us with
          | nil =>
              cases more.eq_nil
              rw [List.append_nil] at hBefore
              exact .cons (first.before hBefore hElse) .nil
          | cons u us =>
              have hMore := ih more
                ((endedBefore_append
                  (List.cons_ne_nil u us)).mp hBefore)
              exact .cons first hMore

/-
  What is read as declarations before the kind of the next
  token comes first in a program.
-/
theorem Decl.parseAll_append
    (h :
      ReadsAll set.limits.groupRoom set.limits.depthRoom ts
        (Token.next rest none) ds) :
    parseAll set (ts ++ rest) =
      ds.map .ok ++ parseAll set rest := by
  induction ds generalizing ts with
  | nil =>
      cases h
      rfl
  | cons d ds ih =>
      cases h with
      | @cons _ ts us _ _ _ first more =>
          rw [← Token.next_append] at first
          have hParse := parse_append_eq_done.mpr first
          rw [List.append_assoc, parseAll_of_done hParse,
            ih more]
          rfl

------------------------------------------------------------
-- The Second Source
------------------------------------------------------------

/- What is alike under a map of tokens is mapped by it. -/
theorem Expr.Alike.eq_mapTokens
    (h : Alike (fun t u => u = f t) e e') :
    e' = e.mapTokens f := by
  induction h with
  | literal hToken => rw [mapTokens, hToken]
  | identifier hToken => rw [mapTokens, hToken]
  | grouping inner ih => rw [mapTokens, ih]
  | unary hOp inner ih => rw [mapTokens, hOp, ih]
  | binary left hOp right ihLeft ihRight =>
      rw [mapTokens, hOp, ihLeft, ihRight]
  | logical left hOp right ihLeft ihRight =>
      rw [mapTokens, hOp, ihLeft, ihRight]
  | assign hTarget inner ih => rw [mapTokens, hTarget, ih]

mutual

/- A statement that is alike is mapped. -/
theorem Stmt.Alike.eq_mapTokens
    {s s' : Stmt}
    (h : Stmt.Alike (fun t u => u = f t) s s')
    (k : Nat) :
    s' = s.mapTokens (fun _ => f) k := by
  cases h with
  | expression inner =>
      rw [Stmt.mapTokens, inner.eq_mapTokens]
  | print inner =>
      rw [Stmt.mapTokens, inner.eq_mapTokens]
  | ifThen test first =>
      rw [Stmt.mapTokens, test.eq_mapTokens,
        Stmt.Alike.eq_mapTokens first k]
  | ifElse test first second =>
      rw [Stmt.mapTokens, test.eq_mapTokens,
        Stmt.Alike.eq_mapTokens first k,
        Stmt.Alike.eq_mapTokens second k]
  | block body =>
      rw [Stmt.mapTokens,
        Decl.AlikeAll.eq_mapAllTokens body (k + 1)]

/- A declaration that is alike is mapped. -/
theorem Decl.Alike.eq_mapTokens
    {d d' : Decl}
    (h : Decl.Alike (fun t u => u = f t) d d')
    (k : Nat) :
    d' = d.mapTokens (fun _ => f) k := by
  cases h with
  | declare hName => rw [Decl.mapTokens, hName]
  | declareWith hName inner =>
      rw [Decl.mapTokens, hName, inner.eq_mapTokens]
  | statement inner =>
      rw [Decl.mapTokens, Stmt.Alike.eq_mapTokens inner k]

/- Declarations that are alike are mapped. -/
theorem Decl.AlikeAll.eq_mapAllTokens
    {ds ds' : List Decl}
    (h : Decl.AlikeAll (fun t u => u = f t) ds ds')
    (k : Nat) :
    ds' = Decl.mapAllTokens (fun _ => f) k ds := by
  cases h with
  | nil => rw [Decl.mapAllTokens]
  | cons first more =>
      rw [Decl.mapAllTokens,
        Decl.Alike.eq_mapTokens first k,
        Decl.AlikeAll.eq_mapAllTokens more k]

end

/- A syntax error some lines further down. -/
def ParseError.lower
    (n : Int)
    (e : ParseError) : ParseError :=
  { e with line := e.line + n }

/- A declaration some lines further down. -/
def Decl.lower
    (n : Int)
    (d : Decl) : Decl :=
  d.mapTokens (fun _ => Token.lower n) 0

/- An item of a program some lines further down. -/
def Decl.lowerItem
    (n : Int) :
    Except ParseError Decl → Except ParseError Decl
  | .ok d => .ok (d.lower n)
  | .error e => .error (e.lower n)

/- An error that is alike is moved down with its line. -/
theorem ParseError.Alike.eq_lower
    {p p' : ParseError}
    (h :
      Alike (fun t u => u = t.lower n) ⟨limits, line⟩
        ⟨limits, line + n⟩ p p') :
    p' = p.lower n := by
  cases h with
  | unexpectedToken hToken expected =>
      subst hToken
      rfl
  | wrongToken hToken expected =>
      subst hToken
      rfl
  | endOfInput => rfl
  | invalidTarget hToken target =>
      subst hToken
      rw [target.eq_mapTokens,
        Expr.chars_mapTokens (Token.lexeme_lower n)]
      rfl
  | nestingTooDeep hTokens limit =>
      cases hTokens with
      | nil => rfl
      | cons hToken hMore =>
          subst hToken
          rfl

/- Further down, the same program is read. -/
theorem Decl.parseAll_lower
    (limits : Limits)
    (line n : Int)
    (ts : List Token) :
    parseAll ⟨limits, line + n⟩ (ts.map (Token.lower n)) =
      (parseAll ⟨limits, line⟩ ts).map (lowerItem n) := by
  have hSettings :
      Setting.Alike (fun t u => u = t.lower n)
        ⟨limits, line⟩ ⟨limits, line + n⟩ := by
    refine ⟨rfl, ?_⟩
    rintro t t' rfl
    rfl
  have hTokens :
      List.Forall₂ (fun t u => u = Token.lower n t) ts
        (ts.map (Token.lower n)) :=
    List.forall₂_map_right_iff.mpr
      (List.forall₂_same.mpr fun _ _ => rfl)
  have hItems :=
    (alike_parseAll hSettings hTokens).imp
      (S := fun item item' => lowerItem n item = item')
      (by
        intro item item' hItem
        cases hItem with
        | ok hDecl =>
            rw [hDecl.eq_mapTokens 0]
            rfl
        | error hError =>
            rw [hError.eq_lower]
            rfl)
  rw [← List.forall₂_map_left_iff,
    List.forall₂_eq_eq_eq] at hItems
  exact hItems.symm

------------------------------------------------------------
-- Joined Sources
------------------------------------------------------------

namespace Decl

/-
  Sources that can be joined.  Both of them are scanned, and
  the first one is read, without an error.  The first one
  ends with a semicolon or a closing brace, and the second
  one starts with no `else`, nor with a semicolon after a
  brace.
-/
structure Joinable
    (first second : String) : Prop where
  errorsOf_first :
    (Decl.ofSource .standard first).map errorsOf = .ok []
  errorsOf_second :
    Token.errorsOf (Token.scan second) = []
  last_first :
    IsLast .semicolon (Token.ofSource first) ∨
      IsLast .rightBrace (Token.ofSource first)
  head_second :
    ∀ t ∈ (Token.ofSource second).head?,
      ¬ t.kind = .elseWord ∧
        (IsLast .rightBrace (Token.ofSource first) →
          ¬ t.kind = .semicolon)

/- A source that is read as a program is scanned. -/
theorem errorsOf_scan_of_ofSource
    {source : String}
    {items : List (Except ParseError Decl)}
    (h : Decl.ofSource limits source = .ok items) :
    Token.errorsOf (Token.scan source) = [] := by
  unfold ofSource at h
  dsimp only at h
  split at h
  · assumption
  · cases h

namespace Joinable

/- The first source is read as declarations. -/
theorem exists_ofSource_first
    (h : Joinable first second) :
    ∃ ds : List Decl,
      Decl.ofSource .standard first = .ok (ds.map .ok) := by
  have hErrors := h.errorsOf_first
  cases hFirst : Decl.ofSource .standard first with
  | error errors =>
      rw [hFirst] at hErrors
      cases hErrors
  | ok items =>
      rw [hFirst] at hErrors
      rcases errorsOf_eq_nil.mp (Except.ok.inj hErrors) with
        ⟨ds, rfl⟩
      exact ⟨ds, rfl⟩

/- The second source goes on with nothing of the first. -/
theorem endedBefore
    (h : Joinable first second) :
    EndedBefore (Token.ofSource first)
      (Token.next (Token.ofSource second) none) := by
  intro k hk
  rcases Token.mem_next.mp hk with ⟨t, ht, rfl⟩
  rcases h.last_first with hSemicolon | hBrace
  · exact .inl hSemicolon
  · exact .inr
      ⟨(h.head_second t ht).2 hBrace, .inl hBrace⟩

/- No `else` goes on with the first source. -/
theorem next_ne_elseWord
    (h : Joinable first second) :
    ¬ Token.next (Token.ofSource second) none =
      some .elseWord := by
  intro hNext
  rcases Token.mem_next.mp hNext with ⟨t, ht, hKind⟩
  exact (h.head_second t ht).1 hKind

/-
  Joined sources are read as the declarations of the first
  one and the program of the second one, further down.
-/
theorem ofSource_append_newline
    {items : List (Except ParseError Decl)}
    (h : Joinable first second)
    (hFirst :
      Decl.ofSource .standard first = .ok (ds.map .ok))
    (hSecond : Decl.ofSource .standard second = .ok items) :
    Decl.ofSource .standard (first ++ "\n" ++ second) =
      .ok (ds.map .ok ++
        items.map (lowerItem (Token.lineCount first))) := by
  have hScan := errorsOf_scan_of_ofSource hFirst
  rw [ofSource_of_errorsOf hScan, Except.ok.injEq,
    parseAll_eq_map_ok] at hFirst
  rw [ofSource_of_errorsOf h.errorsOf_second,
    Except.ok.injEq] at hSecond
  have hReads :=
    hFirst.before h.endedBefore h.next_ne_elseWord
  have hNext :
      Token.next
          ((Token.ofSource second).map
            (Token.lower (Token.lineCount first))) none =
        Token.next (Token.ofSource second) none := by
    cases Token.ofSource second
    all_goals rfl
  rw [← hNext] at hReads
  have hLine :
      (1 : Int) +
          Token.newlines
            (first ++ "\n" ++ second).toList =
        1 + Token.newlines second.toList +
          Token.lineCount first := by
    rw [Token.newlines_append_newline]
    omega
  have hAll (line : Int) :
      parseAll ⟨.standard, line⟩
          (Token.ofSource first ++
            (Token.ofSource second).map
              (Token.lower (Token.lineCount first))) =
        ds.map .ok ++
          parseAll ⟨.standard, line⟩
            ((Token.ofSource second).map
              (Token.lower (Token.lineCount first))) :=
    parseAll_append hReads
  rw [ofSource_of_errorsOf
      (Token.errorsOf_scan_append_newline hScan
        h.errorsOf_second),
    Token.ofSource_append_newline hScan, hLine, hAll,
    parseAll_lower, hSecond]

end Joinable

end Decl

end Lox
