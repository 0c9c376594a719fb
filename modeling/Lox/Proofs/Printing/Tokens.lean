import Lox.Proofs.Printing.Shift

/-
  The tokens of trees, and trees with other tokens.

  The tokens of a statement are listed, and replaced, along
  with the number of blocks around them.

  Key definitions include:
    * `Expr.mapTokens`, `Stmt.mapTokens`, `Decl.mapTokens`
    * `Expr.tokens`, `Stmt.tokens`, `Decl.tokens`

  Key theorems include:
    * `Decl.mapTokens_congr`
    * `Decl.mapTokens_mapTokens`
    * `Decl.chars_mapTokens`
    * `Decl.Derives.mem_of_mem_tokens`
-/

namespace Lox

------------------------------------------------------------
-- Definitions
------------------------------------------------------------

/- An expression with other tokens. -/
def Expr.mapTokens
    (f : Token → Token) : Expr → Expr
  | literal t => literal (f t)
  | identifier t => identifier (f t)
  | grouping e => grouping (e.mapTokens f)
  | unary op e => unary (f op) (e.mapTokens f)
  | binary left op right =>
      binary (left.mapTokens f) (f op) (right.mapTokens f)
  | logical left op right =>
      logical (left.mapTokens f) (f op) (right.mapTokens f)
  | assign target e => assign (f target) (e.mapTokens f)
  | hole => hole

mutual

/- A statement with other tokens, inside of `n` blocks. -/
def Stmt.mapTokens
    (f : Nat → Token → Token)
    (n : Nat) : Stmt → Stmt
  | .expression e => .expression (e.mapTokens (f n))
  | .print e => .print (e.mapTokens (f n))
  | .ifThen c s =>
      .ifThen (c.mapTokens (f n)) (s.mapTokens f n)
  | .ifElse c s t =>
      .ifElse (c.mapTokens (f n)) (s.mapTokens f n)
        (t.mapTokens f n)
  | .block ds => .block (Decl.mapAllTokens f (n + 1) ds)
  | .hole => .hole

/- A declaration with other tokens, inside of `n` blocks. -/
def Decl.mapTokens
    (f : Nat → Token → Token)
    (n : Nat) : Decl → Decl
  | .declare name none => .declare (f n name) none
  | .declare name (some e) =>
      .declare (f n name) (some (e.mapTokens (f n)))
  | .statement s => .statement (s.mapTokens f n)
  | .hole => .hole

/- Declarations with other tokens, inside of `n` blocks. -/
def Decl.mapAllTokens
    (f : Nat → Token → Token)
    (n : Nat) : List Decl → List Decl
  | [] => []
  | d :: ds => d.mapTokens f n :: Decl.mapAllTokens f n ds

end

/- The tokens of an expression that it shows. -/
def Expr.tokens : Expr → List Token
  | literal t => [t]
  | identifier t => [t]
  | grouping e => e.tokens
  | unary op e => op :: e.tokens
  | binary left op right => left.tokens ++ op :: right.tokens
  | logical left op right => left.tokens ++ op :: right.tokens
  | assign target e => target :: e.tokens
  | hole => []

/- The tokens of an expression, all inside of `n` blocks. -/
def Expr.tokensIn
    (n : Nat)
    (e : Expr) : List (Nat × Token) :=
  e.tokens.map (Prod.mk n)

mutual

/-
  The tokens of a statement inside of `n` blocks, each with
  the number of blocks around it.
-/
def Stmt.tokens
    (n : Nat) : Stmt → List (Nat × Token)
  | .expression e => e.tokensIn n
  | .print e => e.tokensIn n
  | .ifThen c s => c.tokensIn n ++ s.tokens n
  | .ifElse c s t => c.tokensIn n ++ s.tokens n ++ t.tokens n
  | .block ds => Decl.allTokens (n + 1) ds
  | .hole => []

/- The tokens of a declaration inside of `n` blocks. -/
def Decl.tokens
    (n : Nat) : Decl → List (Nat × Token)
  | .declare name none => [(n, name)]
  | .declare name (some e) => (n, name) :: e.tokensIn n
  | .statement s => s.tokens n
  | .hole => []

/- The tokens of declarations inside of `n` blocks. -/
def Decl.allTokens
    (n : Nat) : List Decl → List (Nat × Token)
  | [] => []
  | d :: ds => d.tokens n ++ Decl.allTokens n ds

end

------------------------------------------------------------
-- Expressions with Other Tokens
------------------------------------------------------------

namespace Expr

variable {e : Expr} {f g : Token → Token}

/- Only the tokens of an expression matter. -/
theorem mapTokens_congr
    (h : ∀ t ∈ e.tokens, f t = g t) :
    e.mapTokens f = e.mapTokens g := by
  induction e with
  | literal t => simp only [mapTokens, h t (by simp [tokens])]
  | identifier t =>
      simp only [mapTokens, h t (by simp [tokens])]
  | grouping e ih =>
      simp only [mapTokens, ih h]
  | unary op e ih =>
      have hOp := h op (by simp [tokens])
      have he := ih fun t ht => h t (by simp [tokens, ht])
      simp only [mapTokens, hOp, he]
  | binary left op right ihLeft ihRight =>
      have hOp := h op (by simp [tokens])
      have hLeft :=
        ihLeft fun t ht => h t (by simp [tokens, ht])
      have hRight :=
        ihRight fun t ht => h t (by simp [tokens, ht])
      simp only [mapTokens, hOp, hLeft, hRight]
  | logical left op right ihLeft ihRight =>
      have hOp := h op (by simp [tokens])
      have hLeft :=
        ihLeft fun t ht => h t (by simp [tokens, ht])
      have hRight :=
        ihRight fun t ht => h t (by simp [tokens, ht])
      simp only [mapTokens, hOp, hLeft, hRight]
  | assign target e ih =>
      have hTarget := h target (by simp [tokens])
      have he := ih fun t ht => h t (by simp [tokens, ht])
      simp only [mapTokens, hTarget, he]
  | hole => rfl

/- Tokens are replaced one after the other. -/
theorem mapTokens_mapTokens
    (e : Expr)
    (f g : Token → Token) :
    (e.mapTokens f).mapTokens g =
      e.mapTokens fun t => g (f t) := by
  induction e with
  | literal t => rfl
  | identifier t => rfl
  | grouping e ih => simp only [mapTokens, ih]
  | unary op e ih => simp only [mapTokens, ih]
  | binary left op right ihLeft ihRight =>
      simp only [mapTokens, ihLeft, ihRight]
  | logical left op right ihLeft ihRight =>
      simp only [mapTokens, ihLeft, ihRight]
  | assign target e ih => simp only [mapTokens, ih]
  | hole => rfl

/- The text of an expression depends on its lexemes only. -/
theorem chars_mapTokens
    (hLexeme : ∀ t, (f t).lexeme = t.lexeme)
    (e : Expr) :
    (e.mapTokens f).chars = e.chars := by
  induction e with
  | literal t => simp only [mapTokens, chars, hLexeme]
  | identifier t => simp only [mapTokens, chars, hLexeme]
  | grouping e ih => simp only [mapTokens, chars, ih]
  | unary op e ih =>
      simp only [mapTokens, chars, hLexeme, ih]
  | binary left op right ihLeft ihRight =>
      simp only [mapTokens, chars, hLexeme, ihLeft, ihRight]
  | logical left op right ihLeft ihRight =>
      simp only [mapTokens, chars, hLexeme, ihLeft, ihRight]
  | assign target e ih =>
      simp only [mapTokens, chars, hLexeme, ih]
  | hole => rfl

/- Tokens of the same kinds are as many operators. -/
theorem links_mapTokens
    (hKind : ∀ t, (f t).kind = t.kind)
    (c : Chain)
    (e : Expr) :
    (e.mapTokens f).links c = e.links c := by
  induction e with
  | binary left op right ihLeft ihRight =>
      simp only [mapTokens, links, hKind, ihLeft]
  | logical left op right ihLeft ihRight =>
      simp only [mapTokens, links, hKind, ihLeft]
  | _ => rfl

end Expr

/- Joins are joined after their tokens are replaced. -/
theorem Chain.mapTokens_join
    (c : Chain)
    (left right : Expr)
    (op : Token)
    (f : Token → Token) :
    (c.join left op right).mapTokens f =
      c.join (left.mapTokens f) (f op) (right.mapTokens f) := by
  cases c
  all_goals rfl

------------------------------------------------------------
-- Statements with Other Tokens
------------------------------------------------------------

section Statements

variable {f g : Nat → Token → Token}

/- Only the tokens of an expression matter, in any block. -/
theorem Expr.mapTokens_congr_in
    {n : Nat}
    {e : Expr}
    (h : ∀ p ∈ e.tokensIn n, f p.1 p.2 = g p.1 p.2) :
    e.mapTokens (f n) = e.mapTokens (g n) :=
  mapTokens_congr fun t ht =>
    h (n, t) (List.mem_map.mpr ⟨t, ht, rfl⟩)

mutual

/- Only the tokens of a statement matter. -/
theorem Stmt.mapTokens_congr
    (n : Nat) :
    ∀ {s : Stmt},
      (∀ p ∈ s.tokens n, f p.1 p.2 = g p.1 p.2) →
        s.mapTokens f n = s.mapTokens g n
  | .expression e, h => by
      rw [Stmt.tokens] at h
      rw [Stmt.mapTokens, Stmt.mapTokens,
        Expr.mapTokens_congr_in h]
  | .print e, h => by
      rw [Stmt.tokens] at h
      rw [Stmt.mapTokens, Stmt.mapTokens,
        Expr.mapTokens_congr_in h]
  | .ifThen c s, h => by
      rw [Stmt.tokens, List.forall_mem_append] at h
      rw [Stmt.mapTokens, Stmt.mapTokens,
        Expr.mapTokens_congr_in h.1,
        Stmt.mapTokens_congr n h.2]
  | .ifElse c s t, h => by
      rw [Stmt.tokens, List.forall_mem_append,
        List.forall_mem_append] at h
      rw [Stmt.mapTokens, Stmt.mapTokens,
        Expr.mapTokens_congr_in h.1.1,
        Stmt.mapTokens_congr n h.1.2,
        Stmt.mapTokens_congr n h.2]
  | .block ds, h => by
      rw [Stmt.tokens] at h
      rw [Stmt.mapTokens, Stmt.mapTokens,
        Decl.mapAllTokens_congr (n + 1) h]
  | .hole, _ => by
      rw [Stmt.mapTokens, Stmt.mapTokens]

/- Only the tokens of a declaration matter. -/
theorem Decl.mapTokens_congr
    (n : Nat) :
    ∀ {d : Decl},
      (∀ p ∈ d.tokens n, f p.1 p.2 = g p.1 p.2) →
        d.mapTokens f n = d.mapTokens g n
  | .declare name none, h => by
      rw [Decl.tokens, List.forall_mem_singleton] at h
      rw [Decl.mapTokens, Decl.mapTokens, h]
  | .declare name (some e), h => by
      rw [Decl.tokens, List.forall_mem_cons] at h
      rw [Decl.mapTokens, Decl.mapTokens, h.1,
        Expr.mapTokens_congr_in h.2]
  | .statement s, h => by
      rw [Decl.tokens] at h
      rw [Decl.mapTokens, Decl.mapTokens,
        Stmt.mapTokens_congr n h]
  | .hole, _ => by
      rw [Decl.mapTokens, Decl.mapTokens]

/- Only the tokens of declarations matter. -/
theorem Decl.mapAllTokens_congr
    (n : Nat) :
    ∀ {ds : List Decl},
      (∀ p ∈ Decl.allTokens n ds, f p.1 p.2 = g p.1 p.2) →
        Decl.mapAllTokens f n ds = Decl.mapAllTokens g n ds
  | [], _ => by
      rw [Decl.mapAllTokens, Decl.mapAllTokens]
  | d :: ds, h => by
      rw [Decl.allTokens, List.forall_mem_append] at h
      rw [Decl.mapAllTokens, Decl.mapAllTokens,
        Decl.mapTokens_congr n h.1,
        Decl.mapAllTokens_congr n h.2]

end

mutual

/- Tokens are replaced one after the other. -/
theorem Stmt.mapTokens_mapTokens
    (n : Nat) :
    ∀ s : Stmt, (s.mapTokens f n).mapTokens g n =
      s.mapTokens (fun k t => g k (f k t)) n
  | .expression e => by
      simp only [Stmt.mapTokens, Expr.mapTokens_mapTokens]
  | .print e => by
      simp only [Stmt.mapTokens, Expr.mapTokens_mapTokens]
  | .ifThen c s => by
      simp only [Stmt.mapTokens, Expr.mapTokens_mapTokens,
        Stmt.mapTokens_mapTokens n s]
  | .ifElse c s t => by
      simp only [Stmt.mapTokens, Expr.mapTokens_mapTokens,
        Stmt.mapTokens_mapTokens n s,
        Stmt.mapTokens_mapTokens n t]
  | .block ds => by
      simp only [Stmt.mapTokens,
        Decl.mapAllTokens_mapAllTokens (n + 1) ds]
  | .hole => by
      simp only [Stmt.mapTokens]

/- Tokens are replaced one after the other. -/
theorem Decl.mapTokens_mapTokens
    (n : Nat) :
    ∀ d : Decl, (d.mapTokens f n).mapTokens g n =
      d.mapTokens (fun k t => g k (f k t)) n
  | .declare name none => by
      simp only [Decl.mapTokens]
  | .declare name (some e) => by
      simp only [Decl.mapTokens, Expr.mapTokens_mapTokens]
  | .statement s => by
      simp only [Decl.mapTokens, Stmt.mapTokens_mapTokens n s]
  | .hole => by
      simp only [Decl.mapTokens]

/- Tokens are replaced one after the other. -/
theorem Decl.mapAllTokens_mapAllTokens
    (n : Nat) :
    ∀ ds : List Decl,
      Decl.mapAllTokens g n (Decl.mapAllTokens f n ds) =
        Decl.mapAllTokens (fun k t => g k (f k t)) n ds
  | [] => by
      simp only [Decl.mapAllTokens]
  | d :: ds => by
      simp only [Decl.mapAllTokens,
        Decl.mapTokens_mapTokens n d,
        Decl.mapAllTokens_mapAllTokens n ds]

end

mutual

/- The text of a statement depends on its lexemes only. -/
theorem Stmt.chars_mapTokens
    (hLexeme : ∀ n t, (f n t).lexeme = t.lexeme)
    (n : Nat) :
    ∀ s : Stmt, (s.mapTokens f n).chars = s.chars
  | .expression e => by
      rw [Stmt.mapTokens, Stmt.chars, Stmt.chars,
        Expr.chars_mapTokens (hLexeme n)]
  | .print e => by
      rw [Stmt.mapTokens, Stmt.chars, Stmt.chars,
        Expr.chars_mapTokens (hLexeme n)]
  | .ifThen c s => by
      rw [Stmt.mapTokens, Stmt.chars, Stmt.chars,
        Expr.chars_mapTokens (hLexeme n),
        Stmt.chars_mapTokens hLexeme n s]
  | .ifElse c s t => by
      rw [Stmt.mapTokens, Stmt.chars, Stmt.chars,
        Expr.chars_mapTokens (hLexeme n),
        Stmt.chars_mapTokens hLexeme n s,
        Stmt.chars_mapTokens hLexeme n t]
  | .block [] => by
      rw [Stmt.mapTokens, Decl.mapAllTokens]
  | .block (d :: ds) => by
      rw [Stmt.mapTokens, Decl.mapAllTokens, Stmt.chars,
        Stmt.chars, Decl.chars_mapTokens hLexeme (n + 1) d,
        Decl.blockChars_mapAllTokens hLexeme (n + 1) ds]
  | .hole => by
      rw [Stmt.mapTokens]

/- The text of a declaration depends on its lexemes only. -/
theorem Decl.chars_mapTokens
    (hLexeme : ∀ n t, (f n t).lexeme = t.lexeme)
    (n : Nat) :
    ∀ d : Decl, (d.mapTokens f n).chars = d.chars
  | .declare name none => by
      rw [Decl.mapTokens, Decl.chars, Decl.chars, hLexeme]
  | .declare name (some e) => by
      rw [Decl.mapTokens, Decl.chars, Decl.chars, hLexeme,
        Expr.chars_mapTokens (hLexeme n)]
  | .statement s => by
      rw [Decl.mapTokens, Decl.chars, Decl.chars,
        Stmt.chars_mapTokens hLexeme n s]
  | .hole => by
      rw [Decl.mapTokens]

/- The text of declarations depends on their lexemes only. -/
theorem Decl.blockChars_mapAllTokens
    (hLexeme : ∀ n t, (f n t).lexeme = t.lexeme)
    (n : Nat) :
    ∀ ds : List Decl,
      Decl.blockChars (Decl.mapAllTokens f n ds) =
        Decl.blockChars ds
  | [] => by
      rw [Decl.mapAllTokens]
  | d :: ds => by
      rw [Decl.mapAllTokens, Decl.blockChars,
        Decl.blockChars, Decl.chars_mapTokens hLexeme n d,
        Decl.blockChars_mapAllTokens hLexeme n ds]

end

/- Other tokens do not open the end of a statement. -/
theorem Stmt.endsOpen_mapTokens
    (n : Nat) :
    ∀ s : Stmt, (s.mapTokens f n).endsOpen = s.endsOpen
  | .expression e => by
      rw [Stmt.mapTokens, Stmt.endsOpen, Stmt.endsOpen]
      all_goals nofun
  | .print e => by
      rw [Stmt.mapTokens, Stmt.endsOpen, Stmt.endsOpen]
      all_goals nofun
  | .ifThen c s => by
      rw [Stmt.mapTokens, Stmt.endsOpen, Stmt.endsOpen]
  | .ifElse c s t => by
      rw [Stmt.mapTokens, Stmt.endsOpen, Stmt.endsOpen,
        Stmt.endsOpen_mapTokens n t]
  | .block ds => by
      rw [Stmt.mapTokens, Stmt.endsOpen, Stmt.endsOpen]
      all_goals nofun
  | .hole => by
      rw [Stmt.mapTokens]

end Statements

------------------------------------------------------------
-- Tokens of Derived Trees
------------------------------------------------------------

section Derived

variable {endings : Endings} {level : Level}
variable {depth groups : Nat}
variable {ts : List Token}

/- The tokens of a join are those of its parts. -/
theorem Chain.tokens_join
    (c : Chain)
    (left right : Expr)
    (op : Token) :
    (c.join left op right).tokens =
      left.tokens ++ op :: right.tokens := by
  cases c
  all_goals rfl

/- An expression shows tokens that it is derived from. -/
theorem Expr.Derives.mem_of_mem_tokens
    {e : Expr}
    (h : Derives level depth groups ts e) :
    ∀ t ∈ e.tokens, t ∈ ts := by
  induction h with
  | expression inner ih => exact ih
  | assign hName hEquals inner ih =>
      intro t ht
      rcases List.mem_cons.mp ht with rfl | hInner
      · simp
      · simp [ih t hInner]
  | plain inner ih => exact ih
  | operand inner ih => exact ih
  | link first hOp hDepth second ihFirst ihSecond =>
      intro t ht
      rw [Chain.tokens_join] at ht
      rcases List.mem_append.mp ht with hLeft | hRight
      · simp [ihFirst t hLeft]
      · rcases List.mem_cons.mp hRight with rfl | hRight
        · simp
        · simp [ihSecond t hRight]
  | unary hOp inner ih =>
      intro t ht
      rcases List.mem_cons.mp ht with rfl | hInner
      · simp
      · simp [ih t hInner]
  | primary inner ih => exact ih
  | literal hLiteral => exact fun t ht => ht
  | identifier hName => exact fun t ht => ht
  | grouping hOpening inner hClosing ih =>
      intro t ht
      simp [ih t ht]

/- Inside of any block, an expression shows such tokens. -/
theorem Expr.Derives.mem_of_mem_tokensIn
    {e : Expr}
    (h : Derives level depth groups ts e)
    {n : Nat}
    {p : Nat × Token}
    (hp : p ∈ e.tokensIn n) :
    p.2 ∈ ts := by
  rcases List.mem_map.mp hp with ⟨t, ht, rfl⟩
  exact h.mem_of_mem_tokens t ht

mutual

/- A statement shows tokens that it is derived from. -/
theorem Stmt.Derives.mem_of_mem_tokens
    {depth : Nat} {ts : List Token} {s : Stmt}
    (h : Stmt.Derives endings groups depth ts s)
    {n : Nat}
    {p : Nat × Token}
    (hp : p ∈ s.tokens n) :
    p.2 ∈ ts := by
  cases h with
  | expression inner hEnd =>
      rw [Stmt.tokens] at hp
      simp [inner.mem_of_mem_tokensIn hp]
  | print hWord inner hEnd =>
      rw [Stmt.tokens] at hp
      simp [inner.mem_of_mem_tokensIn hp]
  | block hOpening body hClosing hEnd =>
      rw [Stmt.tokens] at hp
      simp [Decl.DerivesAll.mem_of_mem_allTokens body hp]
  | ifThen hWord hOpening test hClosing first =>
      rw [Stmt.tokens, List.mem_append] at hp
      rcases hp with hp | hp
      · simp [test.mem_of_mem_tokensIn hp]
      · simp [Stmt.Derives.mem_of_mem_tokens first hp]
  | ifElse hWord hOpening test hClosing first hBody hSeparator
      second =>
      rw [Stmt.tokens, List.mem_append, List.mem_append] at hp
      rcases hp with (hp | hp) | hp
      · simp [test.mem_of_mem_tokensIn hp]
      · simp [Stmt.Derives.mem_of_mem_tokens first hp]
      · simp [Stmt.Derives.mem_of_mem_tokens second hp]

/- A declaration shows tokens that it is derived from. -/
theorem Decl.Derives.mem_of_mem_tokens
    {depth : Nat} {ts : List Token} {d : Decl}
    (h : Decl.Derives endings groups depth ts d)
    {n : Nat}
    {p : Nat × Token}
    (hp : p ∈ d.tokens n) :
    p.2 ∈ ts := by
  cases h with
  | declare hWord hName hEnd =>
      rw [Decl.tokens, List.mem_singleton] at hp
      simp [hp]
  | declareWith hWord hName hEquals inner hEnd =>
      rw [Decl.tokens, List.mem_cons] at hp
      rcases hp with hp | hp
      · simp [hp]
      · simp [inner.mem_of_mem_tokensIn hp]
  | statement inner =>
      rw [Decl.tokens] at hp
      exact Stmt.Derives.mem_of_mem_tokens inner hp

/- Declarations show tokens that they are derived from. -/
theorem Decl.DerivesAll.mem_of_mem_allTokens
    {depth : Nat} {ts : List Token} {ds : List Decl}
    (h : Decl.DerivesAll endings groups depth ts ds)
    {n : Nat}
    {p : Nat × Token}
    (hp : p ∈ Decl.allTokens n ds) :
    p.2 ∈ ts := by
  cases h with
  | nil =>
      rw [Decl.allTokens] at hp
      cases hp
  | cons first more =>
      rw [Decl.allTokens, List.mem_append] at hp
      rcases hp with hp | hp
      · simp [Decl.Derives.mem_of_mem_tokens first hp]
      · simp [Decl.DerivesAll.mem_of_mem_allTokens more hp]

end

end Derived

end Lox
