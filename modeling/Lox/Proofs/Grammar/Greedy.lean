import Lox.Proofs.Grammar.Decl
import Lox.Proofs.Reading.Expr

/-
  The grammar of statements and declarations as it is read.

  A reader takes each part as far as it goes: an expression
  up to a token that does not go on with it, a semicolon
  where there is one, and an `else` with the nearest
  statement that lacks one.  Which tree tokens are read as
  therefore depends on the kind of the token after them, and
  on nothing else that comes after them.

  Key definitions include:
    * `Token.next`
    * `EndsBefore`
    * `Stmt.Reads`
    * `Decl.Reads`
    * `Decl.ReadsAll`

  Key theorems include:
    * `Decl.Reads.derives`
    * `Stmt.Reads.before`
    * `Decl.Reads.before`
-/

namespace Lox

------------------------------------------------------------
-- Next Tokens
------------------------------------------------------------

/-
  The kind of the next token: the first of some tokens, or
  the kind that comes after them.
-/
def Token.next
    (us : List Token)
    (after : Option Kind) : Option Kind :=
  match us with
  | [] => after
  | t :: _ => some t.kind

/-
  Tokens that end something: a semicolon, or nothing if the
  kind after them is no semicolon, nor one that goes on.
-/
def EndsBefore
    (more : Kind → Prop)
    (us : List Token)
    (after : Option Kind) : Prop :=
  IsOne .semicolon us ∨
    us = [] ∧ ∀ k ∈ after, ¬ k = .semicolon ∧ ¬ more k

------------------------------------------------------------
-- Greedy Derivations
------------------------------------------------------------

mutual

/-
  Tokens that are read as a statement before a token of some
  kind, or before the end.
-/
inductive Stmt.Reads
    (groups : Nat) :
    Nat → List Token → Option Kind → Stmt → Prop where
  | expression
      {depth : Nat} {ts us : List Token}
      {after : Option Kind} {e : Expr}
      (inner : Expr.Derives .expression depth groups ts e)
      (hEnd :
        EndsBefore (Level.Extends .expression) us after) :
      Stmt.Reads groups (depth + 1)
        (ts ++ us) after (.expression e)
  | print
      {depth : Nat} {ts us : List Token}
      {after : Option Kind} {e : Expr} {word : Token}
      (hWord : word.kind = .printWord)
      (inner : Expr.Derives .expression depth groups ts e)
      (hEnd :
        EndsBefore (Level.Extends .expression) us after) :
      Stmt.Reads groups (depth + 1)
        (word :: ts ++ us) after (.print e)
  | block
      {depth : Nat} {ts us : List Token}
      {after : Option Kind} {ds : List Decl}
      {opening closing : Token}
      (hOpening : opening.kind = .leftBrace)
      (body :
        Decl.ReadsAll groups depth ts (some .rightBrace) ds)
      (hClosing : closing.kind = .rightBrace)
      (hEnd : EndsBefore (fun _ => False) us after) :
      Stmt.Reads groups (depth + 1)
        (opening :: ts ++ closing :: us) after (.block ds)
  | ifThen
      {depth : Nat} {ts us : List Token}
      {after : Option Kind} {condition : Expr} {body : Stmt}
      {word opening closing : Token}
      (hWord : word.kind = .ifWord)
      (hOpening : opening.kind = .leftParen)
      (test :
        Expr.Derives .expression depth groups ts condition)
      (hClosing : closing.kind = .rightParen)
      (first : Stmt.Reads groups depth us after body)
      (hAfter : ¬ after = some .elseWord) :
      Stmt.Reads groups (depth + 1)
        (word :: opening :: ts ++ closing :: us) after
        (.ifThen condition body)
  | ifElse
      {depth : Nat} {ts us vs : List Token}
      {after : Option Kind}
      {condition : Expr} {body other : Stmt}
      {word opening closing separator : Token}
      (hWord : word.kind = .ifWord)
      (hOpening : opening.kind = .leftParen)
      (test :
        Expr.Derives .expression depth groups ts condition)
      (hClosing : closing.kind = .rightParen)
      (first :
        Stmt.Reads groups depth us (some .elseWord) body)
      (hSeparator : separator.kind = .elseWord)
      (second : Stmt.Reads groups depth vs after other) :
      Stmt.Reads groups (depth + 1)
        (word :: opening :: ts ++ closing :: us ++
          separator :: vs)
        after (.ifElse condition body other)

/- Tokens that are read as a declaration. -/
inductive Decl.Reads
    (groups : Nat) :
    Nat → List Token → Option Kind → Decl → Prop where
  | declare
      {depth : Nat} {us : List Token} {after : Option Kind}
      {word name : Token}
      (hWord : word.kind = .varWord)
      (hName : name.kind = .identifier)
      (hEnd : EndsBefore (fun k => k = .equal) us after) :
      Decl.Reads groups depth
        (word :: name :: us) after (.declare name none)
  | declareWith
      {depth : Nat} {ts us : List Token}
      {after : Option Kind} {e : Expr}
      {word name equals : Token}
      (hWord : word.kind = .varWord)
      (hName : name.kind = .identifier)
      (hEquals : equals.kind = .equal)
      (inner : Expr.Derives .expression depth groups ts e)
      (hEnd :
        EndsBefore (Level.Extends .expression) us after) :
      Decl.Reads groups depth
        (word :: name :: equals :: ts ++ us) after
        (.declare name (some e))
  | statement
      {depth : Nat} {ts : List Token}
      {after : Option Kind} {s : Stmt}
      (inner : Stmt.Reads groups depth ts after s) :
      Decl.Reads groups depth ts after (.statement s)

/- Tokens that are read as declarations, one by one. -/
inductive Decl.ReadsAll
    (groups : Nat) :
    Nat → List Token → Option Kind → List Decl → Prop where
  | nil
      {depth : Nat} {after : Option Kind} :
      Decl.ReadsAll groups depth [] after []
  | cons
      {depth : Nat} {ts us : List Token}
      {after : Option Kind} {d : Decl} {ds : List Decl}
      (first :
        Decl.Reads groups depth ts (Token.next us after) d)
      (more : Decl.ReadsAll groups depth us after ds) :
      Decl.ReadsAll groups depth
        (ts ++ us) after (d :: ds)

end

variable {groups depth : Nat}
variable {ts us vs rest : List Token}
variable {after after' : Option Kind}
variable {more : Kind → Prop}
variable {s : Stmt} {d : Decl} {ds : List Decl}

------------------------------------------------------------
-- Endings
------------------------------------------------------------

/- Without tokens, what comes after them is next. -/
@[simp]
theorem Token.next_nil :
    next [] after = after :=
  rfl

/- The first token is next. -/
@[simp]
theorem Token.next_cons
    (t : Token) :
    next (t :: ts) after = some t.kind :=
  rfl

/- After some tokens come others. -/
theorem Token.next_append
    (us vs : List Token) :
    next (us ++ vs) after = next us (next vs after) := by
  cases us <;> rfl

/- What is next is the kind of a first token. -/
theorem Token.mem_next
    {k : Kind} :
    k ∈ next ts none ↔ ∃ t ∈ ts.head?, t.kind = k := by
  cases ts <;> simp [eq_comm]

/- An ending is a semicolon or nothing. -/
theorem EndsBefore.optional
    (h : EndsBefore more us after) :
    us = [] ∨ IsOne .semicolon us := by
  rcases h with h | ⟨h, -⟩
  · exact .inr h
  · exact .inl h

------------------------------------------------------------
-- Reading and Deriving
------------------------------------------------------------

/- An `else` after a statement does not belong to it. -/
theorem Stmt.Reads.endsOpen_ne_elseWord
    (h : Stmt.Reads groups depth ts after s)
    (hOpen : s.endsOpen = true) :
    ¬ after = some .elseWord := by
  induction depth generalizing ts s with
  | zero => cases h
  | succ depth ih =>
      cases h with
      | expression inner hEnd => cases hOpen
      | print hWord inner hEnd => cases hOpen
      | block hOpening body hClosing hEnd => cases hOpen
      | ifThen hWord hOpening test hClosing first hAfter =>
          exact hAfter
      | ifElse hWord hOpening test hClosing first hSeparator
          second =>
          exact ih second hOpen

/- Declarations are derived if they are so one by one. -/
theorem Decl.ReadsAll.derivesAll_of
    (hDerives :
      ∀ ts after d,
        Decl.Reads groups depth ts after d →
          Decl.Derives .optional groups depth ts d)
    (h : Decl.ReadsAll groups depth ts after ds) :
    Decl.DerivesAll .optional groups depth ts ds := by
  induction ds generalizing ts with
  | nil =>
      cases h
      exact .nil
  | cons d ds ih =>
      cases h with
      | cons first more =>
          exact .cons (hDerives _ _ _ first) (ih more)

/- A declaration is derived if statements are. -/
theorem Decl.Reads.derives_of
    (hDerives :
      ∀ ts after s,
        Stmt.Reads groups depth ts after s →
          Stmt.Derives .optional groups depth ts s)
    (h : Decl.Reads groups depth ts after d) :
    Decl.Derives .optional groups depth ts d := by
  cases h with
  | declare hWord hName hEnd =>
      exact .declare hWord hName hEnd.optional
  | declareWith hWord hName hEquals inner hEnd =>
      exact .declareWith hWord hName hEquals inner
        hEnd.optional
  | statement inner =>
      exact .statement (hDerives _ _ _ inner)

/- What is read as a statement derives it. -/
theorem Stmt.Reads.derives
    (h : Stmt.Reads groups depth ts after s) :
    Stmt.Derives .optional groups depth ts s := by
  induction depth generalizing ts after s with
  | zero => cases h
  | succ depth ih =>
      cases h with
      | expression inner hEnd =>
          exact .expression inner hEnd.optional
      | print hWord inner hEnd =>
          exact .print hWord inner hEnd.optional
      | block hOpening body hClosing hEnd =>
          have hBody := body.derivesAll_of fun _ _ _ hd =>
            hd.derives_of fun _ _ _ hs => ih hs
          exact .block hOpening hBody hClosing hEnd.optional
      | ifThen hWord hOpening test hClosing first hAfter =>
          exact .ifThen hWord hOpening test hClosing (ih first)
      | @ifElse _ _ _ _ _ _ body _ _ _ _ _ hWord hOpening
          test hClosing first hSeparator second =>
          have hClosed : body.endsOpen = false := by
            cases hOpen : body.endsOpen with
            | false => rfl
            | true =>
                exact absurd rfl
                  (first.endsOpen_ne_elseWord hOpen)
          exact .ifElse hWord hOpening test hClosing
            (ih first) hClosed hSeparator (ih second)

/- What is read as a declaration derives it. -/
theorem Decl.Reads.derives
    (h : Decl.Reads groups depth ts after d) :
    Decl.Derives .optional groups depth ts d :=
  h.derives_of fun _ _ _ hs => hs.derives

/- What is read as declarations derives them. -/
theorem Decl.ReadsAll.derivesAll
    (h : Decl.ReadsAll groups depth ts after ds) :
    Decl.DerivesAll .optional groups depth ts ds :=
  h.derivesAll_of fun _ _ _ hd => hd.derives

------------------------------------------------------------
-- Last Tokens
------------------------------------------------------------

/- Whether the last token is of a kind. -/
def IsLast
    (k : Kind)
    (ts : List Token) : Prop :=
  ∃ t ∈ ts.getLast?, t.kind = k

/-
  Whether what comes after tokens goes on with none of them:
  the last token is a semicolon, or a brace after which no
  semicolon follows, or what follows continues nothing.
-/
def EndedBefore
    (ts : List Token)
    (after : Option Kind) : Prop :=
  ∀ k ∈ after,
    IsLast .semicolon ts ∨
      ¬ k = .semicolon ∧
        (IsLast .rightBrace ts ∨
          ¬ Level.Extends .expression k)

/- The last token is that of the last part. -/
theorem isLast_append
    {k : Kind}
    (h : vs ≠ []) :
    IsLast k (us ++ vs) ↔ IsLast k vs := by
  unfold IsLast
  rw [List.getLast?_append, List.getLast?_eq_some_getLast h,
    Option.some_or]

/- The only token is the last one. -/
theorem not_isLast_singleton
    {k : Kind}
    {t : Token}
    (h : ¬ t.kind = k) :
    ¬ IsLast k [t] := by
  rintro ⟨u, hu, hKind⟩
  rw [List.getLast?_singleton] at hu
  cases hu
  exact h hKind

/- Only the last part of tokens goes on. -/
theorem endedBefore_append
    (h : vs ≠ []) :
    EndedBefore (us ++ vs) after ↔ EndedBefore vs after := by
  unfold EndedBefore
  rw [isLast_append h, isLast_append h]

/- The first token does not go on if there are others. -/
theorem endedBefore_cons
    {t : Token}
    (h : us ≠ []) :
    EndedBefore (t :: us) after ↔ EndedBefore us after := by
  rw [← List.singleton_append, endedBefore_append h]

/- The last token of an expression stands in expressions. -/
theorem Expr.Derives.not_isLast
    {level : Level}
    {e : Expr}
    {k : Kind}
    (h : Derives level depth groups ts e)
    (hk : k.inExpr = false) :
    ¬ IsLast k ts := by
  rintro ⟨t, ht, hKind⟩
  exact Kind.ne_of_inExpr
    (h.inExpr t (List.mem_of_getLast? ht)) hk hKind

/- An ending is one before whatever does not go on. -/
theorem EndsBefore.before
    (h : EndsBefore more us after)
    (hBefore : EndedBefore (ts ++ us) after')
    (hSemicolon : ¬ IsLast .semicolon ts)
    (hMore :
      ∀ k, more k →
        ¬ IsLast .rightBrace ts ∧
          Level.Extends .expression k) :
    EndsBefore more us after' := by
  rcases h with hOne | ⟨rfl, -⟩
  · exact .inl hOne
  · rw [List.append_nil] at hBefore
    refine .inr ⟨rfl, fun k hk => ?_⟩
    rcases hBefore k hk with hLast | ⟨hKind, hRest⟩
    · exact absurd hLast hSemicolon
    · refine ⟨hKind, fun hGo => ?_⟩
      rcases hRest with hLast | hStops
      · exact (hMore k hGo).1 hLast
      · exact hStops (hMore k hGo).2

/- The ending of an expression is one before other kinds. -/
theorem EndsBefore.before_of_derives
    {e : Expr}
    (h : EndsBefore (Level.Extends .expression) us after)
    (inner : Expr.Derives .expression depth groups ts e)
    (hBefore : EndedBefore (ts ++ us) after') :
    EndsBefore (Level.Extends .expression) us after' :=
  h.before hBefore (inner.not_isLast rfl)
    fun _ hGo => ⟨inner.not_isLast rfl, hGo⟩

/- Expressions and their endings are not empty. -/
theorem Expr.Derives.append_ne_nil
    {level : Level}
    {e : Expr}
    (h : Derives level depth groups ts e) :
    ts ++ us ≠ [] := by
  rcases h.eq_cons with ⟨t, vs, rfl, -⟩
  exact List.cons_ne_nil _ _

/- What is read as a statement is not empty. -/
theorem Stmt.Reads.ne_nil
    (h : Stmt.Reads groups depth ts after s) :
    ts ≠ [] := by
  rcases h.derives.eq_cons with ⟨t, us, rfl, -⟩
  exact List.cons_ne_nil t us

/-
  A statement is read the same before whatever does not go
  on with it.
-/
theorem Stmt.Reads.before
    (h : Stmt.Reads groups depth ts after s)
    (hBefore : EndedBefore ts after')
    (hElse :
      s.endsOpen = true → ¬ after' = some .elseWord) :
    Stmt.Reads groups depth ts after' s := by
  induction depth generalizing ts s with
  | zero => cases h
  | succ depth ih =>
      cases h with
      | expression inner hEnd =>
          exact .expression inner
            (hEnd.before_of_derives inner hBefore)
      | print hWord inner hEnd =>
          rw [List.cons_append,
            endedBefore_cons inner.append_ne_nil] at hBefore
          exact .print hWord inner
            (hEnd.before_of_derives inner hBefore)
      | @block _ _ us _ _ _ closing hOpening body hClosing
          hEnd =>
          have hLast : EndedBefore ([closing] ++ us) after' :=
            (endedBefore_append (List.cons_ne_nil _ _)).mp
              hBefore
          exact .block hOpening body hClosing
            (hEnd.before hLast
              (not_isLast_singleton (by simp [hClosing]))
              fun _ hGo => hGo.elim)
      | ifThen hWord hOpening test hClosing first hAfter =>
          rw [endedBefore_append (List.cons_ne_nil _ _),
            endedBefore_cons first.ne_nil] at hBefore
          exact .ifThen hWord hOpening test hClosing
            (ih first hBefore fun _ => hElse rfl) (hElse rfl)
      | ifElse hWord hOpening test hClosing first hSeparator
          second =>
          rw [endedBefore_append (List.cons_ne_nil _ _),
            endedBefore_cons second.ne_nil] at hBefore
          exact .ifElse hWord hOpening test hClosing first
            hSeparator (ih second hBefore hElse)

/- So is a declaration. -/
theorem Decl.Reads.before
    (h : Decl.Reads groups depth ts after d)
    (hBefore : EndedBefore ts after')
    (hElse : ¬ after' = some .elseWord) :
    Decl.Reads groups depth ts after' d := by
  cases h with
  | @declare _ us _ word name hWord hName hEnd =>
      have hLast : EndedBefore ([name] ++ us) after' :=
        (endedBefore_cons (List.cons_ne_nil _ _)).mp hBefore
      refine .declare hWord hName (hEnd.before hLast
        (not_isLast_singleton (by simp [hName])) ?_)
      rintro k rfl
      exact ⟨not_isLast_singleton (by simp [hName]),
        .inl ⟨rfl, .inl rfl⟩⟩
  | declareWith hWord hName hEquals inner hEnd =>
      rw [List.cons_append, List.cons_append,
        List.cons_append,
        endedBefore_cons (List.cons_ne_nil _ _),
        endedBefore_cons (List.cons_ne_nil _ _),
        endedBefore_cons inner.append_ne_nil] at hBefore
      exact .declareWith hWord hName hEquals inner
        (hEnd.before_of_derives inner hBefore)
  | statement inner =>
      exact .statement
        (inner.before hBefore fun _ => hElse)

end Lox
