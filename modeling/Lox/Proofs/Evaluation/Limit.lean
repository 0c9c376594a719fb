import Lox.Proofs.Evaluation.Nesting
import Lox.Proofs.Printing.Program

/-
  Programs and the limit of evaluation.

  Reading a program limits its nesting, but not its height:
  the first operand of a chain is read with all the levels
  that the operators of the chain use as well, although it
  ends up below them.  So a declaration that was read may
  still be too deep to be evaluated.

  Key definitions include:
    * `Decl.nested`

  Key theorems include:
    * `Decl.ofSource_nested`
    * `Decl.nestingTooDeep_iff_lt_reach`
-/

namespace Lox

variable {f : Nat → Token → Token} {n m depth groups : Nat}
variable {ts : List Token} {e : Expr}

------------------------------------------------------------
-- Other Tokens
------------------------------------------------------------

/- Other tokens leave the first parts where they are. -/
theorem Expr.spine_mapTokens
    (f : Token → Token)
    (e : Expr) :
    (e.mapTokens f).spine = e.spine := by
  induction e with
  | grouping e ih => simp only [mapTokens, spine, ih]
  | unary op e ih => simp only [mapTokens, spine, ih]
  | binary left op right ihLeft ihRight =>
      simp only [mapTokens, spine, ihLeft]
  | logical left op right ihLeft ihRight =>
      simp only [mapTokens, spine, ihLeft]
  | assign target e ih => simp only [mapTokens, spine, ih]
  | _ => rfl

mutual

/- Other tokens leave the first parts where they are. -/
theorem Stmt.spine_mapTokens
    (n : Nat) :
    ∀ s : Stmt, (s.mapTokens f n).spine = s.spine
  | .expression e => by
      rw [Stmt.mapTokens, Stmt.spine, Stmt.spine,
        Expr.spine_mapTokens]
  | .print e => by
      rw [Stmt.mapTokens, Stmt.spine, Stmt.spine,
        Expr.spine_mapTokens]
  | .ifThen c s => by
      rw [Stmt.mapTokens, Stmt.spine, Stmt.spine,
        Expr.spine_mapTokens]
  | .ifElse c s t => by
      rw [Stmt.mapTokens, Stmt.spine, Stmt.spine,
        Expr.spine_mapTokens]
  | .block [] => by
      rw [Stmt.mapTokens, Decl.mapAllTokens]
  | .block (d :: ds) => by
      rw [Stmt.mapTokens, Decl.mapAllTokens, Stmt.spine,
        Stmt.spine, Decl.spine_mapTokens (n + 1) d]
  | .hole => by
      rw [Stmt.mapTokens]

/- Other tokens leave the first parts where they are. -/
theorem Decl.spine_mapTokens
    (n : Nat) :
    ∀ d : Decl, (d.mapTokens f n).spine = d.spine
  | .declare name none => by
      rw [Decl.mapTokens, Decl.spine, Decl.spine]
  | .declare name (some e) => by
      rw [Decl.mapTokens, Decl.spine, Decl.spine,
        Expr.spine_mapTokens]
  | .statement s => by
      rw [Decl.mapTokens, Decl.spine, Decl.spine,
        Stmt.spine_mapTokens n s]
  | .hole => by
      rw [Decl.mapTokens]

end

------------------------------------------------------------
-- Nested Programs
------------------------------------------------------------

/- The token of a negation. -/
def Token.bang : Token :=
  ⟨.bang, String.ofList ['!'], .absent, 1⟩

/- The token of a conjunction. -/
def Token.conjunction : Token :=
  ⟨.andWord, String.ofList ['a', 'n', 'd'], .absent, 1⟩

/- The token of the truth value that is true. -/
def Token.truth : Token :=
  ⟨.trueWord, String.ofList ['t', 'r', 'u', 'e'],
    .bool true, 1⟩

/- The token that ends simple statements. -/
def Token.semicolon : Token :=
  ⟨.semicolon, String.ofList [';'], .absent, 1⟩

/- A truth value that is negated `n` times. -/
def Expr.negations : Nat → Expr
  | 0 => .literal .truth
  | n + 1 => .unary .bang (negations n)

/- An expression that is joined `m` times. -/
def Expr.conjunctions
    (first : Expr) : Nat → Expr
  | 0 => first
  | m + 1 =>
      .logical (first.conjunctions m) .conjunction
        (.literal .truth)

/- Negations below conjunctions, as a declaration. -/
def Decl.nested
    (n m : Nat) : Decl :=
  .statement (.expression ((Expr.negations n).conjunctions m))

/- The first parts of nested expressions are all of them. -/
theorem Decl.spine_nested
    (n m : Nat) :
    (Decl.nested n m).spine = n + m + 2 := by
  have hNegations : ∀ n, (Expr.negations n).spine = n + 1 := by
    intro n
    induction n with
    | zero => rfl
    | succ n ih => rw [Expr.negations, Expr.spine, ih]
  have hConjunctions :
      ((Expr.negations n).conjunctions m).spine =
        n + m + 1 := by
    induction m with
    | zero => exact hNegations n
    | succ m ih =>
        rw [Expr.conjunctions, Expr.spine, ih]
        rfl
  rw [nested, Decl.spine, Stmt.spine, hConjunctions]

/- The tokens of nested expressions are proper. -/
theorem Token.isProper_nested :
    Token.bang.IsProper ∧ Token.conjunction.IsProper ∧
      Token.truth.IsProper ∧ Token.semicolon.IsProper := by
  refine ⟨⟨?_, rfl⟩, ⟨?_, rfl⟩, ⟨?_, rfl⟩, ⟨?_, rfl⟩⟩
  · unfold IsSpelled bang
    rw [String.toList_ofList]
    exact .alone rfl
  · unfold IsSpelled conjunction
    rw [String.toList_ofList]
    exact Lexeme.spells_word (by decide) rfl rfl
  · unfold IsSpelled truth
    rw [String.toList_ofList]
    exact Lexeme.spells_word (by decide) rfl rfl
  · unfold IsSpelled semicolon
    rw [String.toList_ofList]
    exact .single rfl

/- Negations use a level each. -/
theorem Expr.derives_negations
    (h : n ≤ depth)
    (groups : Nat) :
    ∃ ts, (∀ t ∈ ts, t.IsProper) ∧
      Derives .unary depth groups ts (negations n) := by
  rcases Token.isProper_nested with ⟨hBang, -, hTruth, -⟩
  induction n generalizing depth with
  | zero =>
      refine ⟨[.truth], ?_, .primary (.literal rfl)⟩
      rw [List.forall_mem_singleton]
      exact hTruth
  | succ n ih =>
      cases depth with
      | zero => exact absurd h (Nat.not_succ_le_zero n)
      | succ depth =>
          rcases ih (Nat.le_of_succ_le_succ h) with
            ⟨ts, hProper, hDerives⟩
          refine ⟨.bang :: ts, ?_, .unary rfl hDerives⟩
          rw [List.forall_mem_cons]
          exact ⟨hBang, hProper⟩

/- What needs no operators is an operand of conjunctions. -/
theorem Expr.Derives.of_unary
    (h : Derives .unary depth groups ts e) :
    Derives (.chain .equality) depth groups ts e :=
  .operand (c := .equality) (.operand (c := .comparison)
    (.operand (c := .term) (.operand (c := .factor) h)))

/- Conjunctions use a level each, but not of the first one. -/
theorem Expr.derives_conjunctions
    (hFirst : Derives .unary depth groups ts e)
    (hProper : ∀ t ∈ ts, t.IsProper)
    (h : m ≤ depth) :
    ∃ us, (∀ t ∈ us, t.IsProper) ∧
      Derives (.chain .conjunction) depth groups us
        (e.conjunctions m) ∧
      (e.conjunctions m).links .conjunction = m := by
  rcases Token.isProper_nested with ⟨-, hAnd, hTruth, -⟩
  induction m with
  | zero =>
      refine ⟨ts, hProper, .operand (c := .conjunction)
        hFirst.of_unary, ?_⟩
      exact hFirst.links_eq_zero (by simp) (by decide)
  | succ m ih =>
      rcases ih (Nat.le_of_succ_le h) with
        ⟨us, hProper', hDerives, hLinks⟩
      have hOperand :
          Derives (.chain .equality) (depth - m - 1) groups
            [.truth] (.literal .truth) :=
        Derives.of_unary (.primary (.literal rfl))
      refine ⟨us ++ .conjunction :: [.truth], ?_,
        .link (c := .conjunction) hDerives rfl ?_ hOperand, ?_⟩
      · rw [List.forall_mem_append, List.forall_mem_cons,
          List.forall_mem_singleton]
        exact ⟨hProper', hAnd, hTruth⟩
      · rw [hLinks]
        omega
      · rw [conjunctions, links, hLinks]
        rfl

/- Up to 126 negations and conjunctions can be written. -/
theorem Decl.isDerived_nested
    (hn : n ≤ 126)
    (hm : m ≤ 126) :
    (Decl.nested n m).IsDerived .canonical 32 128 := by
  rcases Token.isProper_nested with ⟨-, -, -, hSemicolon⟩
  rcases Expr.derives_negations hn 32 with
    ⟨ts, hProper, hNegations⟩
  rcases
      Expr.derives_conjunctions hNegations hProper hm with
    ⟨us, hProper', hDerives, -⟩
  refine ⟨us ++ [.semicolon], ?_, .statement (.expression
    (.expression (.plain (.operand (c := .disjunction)
      hDerives))) ⟨_, rfl, rfl⟩)⟩
  rw [List.forall_mem_append, List.forall_mem_singleton]
  exact ⟨hProper', hSemicolon⟩

/- The source of a nested declaration. -/
def Decl.nestedSource
    (n m : Nat) : String :=
  String.ofList (Decl.sequence [Decl.nested n m])

example : Decl.nestedSource 2 1 = "!!true and true;" := by
  cbv

/- A nested declaration is read with all of its levels. -/
theorem Decl.ofSource_nested
    (hn : n ≤ 126)
    (hm : m ≤ 126) :
    ∃ d,
      Decl.ofSource .standard (nestedSource n m) =
          .ok [.ok d] ∧
        d.spine = n + m + 2 := by
  have hDerived :
      ∀ d ∈ [Decl.nested n m],
        d.IsDerived .canonical Limits.standard.groupRoom
          Limits.standard.depthRoom := by
    rw [List.forall_mem_singleton]
    exact isDerived_nested hn hm
  rcases ofSource_sequence hDerived with ⟨ds, hSource, hMap⟩
  rcases List.map_eq_singleton_iff.mp hMap with ⟨d, rfl, hd⟩
  refine ⟨d, hSource, ?_⟩
  have hSpine := congrArg Decl.spine hd
  unfold unlined at hSpine
  rw [spine_mapTokens, spine_mapTokens,
    spine_nested] at hSpine
  exact hSpine

------------------------------------------------------------
-- The Limit
------------------------------------------------------------

/-
  A declaration that was read off a source is too deep for
  the standard limit exactly if its evaluation reaches more
  than 200 levels; it reaches those of its first parts, and
  no more than its height.
-/
theorem Decl.nestingTooDeep_iff_lt_reach
    {source : String}
    {items : List (Except ParseError Decl)}
    {d : Decl}
    {m : Machine}
    (hSource : Decl.ofSource .standard source = .ok items)
    (hd : d ∈ Decl.declarationsOf items)
    (hScopes : m.env.scopes ≠ []) :
    ((∃ line after,
        d.evaluate standardLimit m =
          .error
            (.error ⟨line, .nestingTooDeep standardLimit⟩)
            after) ↔
      200 < d.reach m) ∧
      d.spine ≤ d.reach m ∧ d.reach m ≤ d.height := by
  have hComplete :=
    (Decl.wellFormed_of_ofSource hSource hd).missing?_eq_none
  exact ⟨tooDeep_evaluate_iff hComplete hScopes standardLimit,
    d.spine_le_reach m, d.reach_le_height m⟩

/- A negation, by itself, is not too deep. -/
theorem Decl.nestingTooDeep_iff_lt_reach_negation :
    ∃ d,
      Decl.ofSource .standard "!true" = .ok [.ok d] ∧
        ((∃ line after,
            d.evaluate standardLimit ⟨.fresh, []⟩ =
              .error
                (.error
                  ⟨line, .nestingTooDeep standardLimit⟩)
                after) ↔
          200 < d.reach ⟨.fresh, []⟩) ∧
        d.spine ≤ d.reach ⟨.fresh, []⟩ ∧
        d.reach ⟨.fresh, []⟩ ≤ d.height := by
  have hSource :
      Decl.ofSource .standard "!true" =
        .ok [.ok (.statement (.expression (.unary
          ⟨.bang, "!", .absent, 1⟩ (.literal
            ⟨.trueWord, "true", .bool true, 1⟩))))] := by
    cbv
  exact ⟨_, hSource, nestingTooDeep_iff_lt_reach hSource
    List.mem_cons_self (List.cons_ne_nil _ _)⟩

/-
  A source that is read without errors, and evaluation of
  its declaration is too deep all the same.
-/
theorem Decl.nestingTooDeep_nested :
    ∃ d,
      Decl.ofSource .standard (nestedSource 126 73) =
          .ok [.ok d] ∧
        ∃ line after,
          d.evaluate standardLimit ⟨.fresh, []⟩ =
            .error
              (.error ⟨line, .nestingTooDeep standardLimit⟩)
              after := by
  rcases
      ofSource_nested (n := 126) (m := 73) (by decide)
        (by decide) with
    ⟨d, hSource, hSpine⟩
  have hComplete :=
    (Decl.wellFormed_of_ofSource hSource
      List.mem_cons_self).missing?_eq_none
  have hReach := d.spine_le_reach ⟨.fresh, []⟩
  rw [hSpine] at hReach
  refine ⟨d, hSource, ?_⟩
  apply (tooDeep_evaluate_iff hComplete
    (List.cons_ne_nil _ _) standardLimit).mpr
  exact Nat.lt_of_lt_of_le (by decide) hReach

end Lox
