import Lox.Proofs.Reading.Joining
import Lox.Proofs.Scanning.Order
import Lox.Tree.Line
import Mathlib

/-
  Where the trees of a program start, and which line they
  are said to be on.

  A tree does not keep all of its tokens: parentheses and
  braces are left out, and so are the words before it.  Its
  line is that of the first token that it could keep.  This
  is the line on which it starts only if no line feed stands
  between its first token and that one; and a block in which
  nothing comes before a closing brace is on no line.

  Key definitions include:
    * `Node.children`
    * `Node.Within`
    * `Node.DerivedFrom`
    * `Token.shown?`

  Key theorems include:
    * `Node.DerivedFrom.exists_child`
    * `Node.DerivedFrom.exists_within`
    * `Node.DerivedFrom.exists_shown`
    * `Node.line_eq_line_first_iff`
-/

namespace Lox

variable {limits : Limits} {source : String}
variable {level : Level} {groups depth : Nat}
variable {ts us vs : List Token} {t : Token}
variable {n m : Node}

------------------------------------------------------------
-- Parts of Trees
------------------------------------------------------------

namespace Node

/- The trees of which a tree directly consists. -/
def children : Node → List Node
  | expr (.grouping e) => [expr e]
  | expr (.unary _ e) => [expr e]
  | expr (.binary left _ right) => [expr left, expr right]
  | expr (.logical left _ right) => [expr left, expr right]
  | expr (.assign _ e) => [expr e]
  | stmt (.expression e) => [expr e]
  | stmt (.print e) => [expr e]
  | stmt (.ifThen condition body) =>
      [expr condition, stmt body]
  | stmt (.ifElse condition body other) =>
      [expr condition, stmt body, stmt other]
  | stmt (.block ds) => ds.map decl
  | decl (.declare _ (some e)) => [expr e]
  | decl (.statement s) => [stmt s]
  | _ => []

/- Whether a tree consists of another one, at any depth. -/
def Within
    (n m : Node) : Prop :=
  Relation.ReflTransGen (fun n m => m ∈ n.children) n m

/- Whether a tree is what some tokens are read as. -/
def DerivedFrom
    (us : List Token) : Node → Prop
  | expr e =>
      ∃ level depth groups,
        Expr.Derives level depth groups us e
  | stmt s =>
      ∃ groups depth, Stmt.Derives .optional groups depth us s
  | decl d =>
      ∃ groups depth, Decl.Derives .optional groups depth us d

end Node

/- A joined expression consists of its operands. -/
theorem Chain.children_join
    (c : Chain)
    (left right : Expr)
    (op : Token) :
    (Node.expr (c.join left op right)).children =
      [.expr left, .expr right] := by
  cases c <;> rfl

/- What an expression consists of is read from its tokens. -/
theorem Expr.Derives.exists_child
    {e : Expr}
    (h : Derives level depth groups us e)
    (hChild : m ∈ (Node.expr e).children) :
    ∃ vs, vs <:+: us ∧ m.DerivedFrom vs := by
  induction h with
  | expression inner ih => exact ih hChild
  | plain inner ih => exact ih hChild
  | operand inner ih => exact ih hChild
  | primary inner ih => exact ih hChild
  | @assign depth groups ts name equals value hName hEquals
      inner =>
      cases List.mem_singleton.mp hChild
      have hSuffix : ts <:+ name :: equals :: ts :=
        List.suffix_append [name, equals] ts
      exact ⟨ts, hSuffix.isInfix, _, _, _, inner⟩
  | @link depth below groups ts us c op left right first hOp
      hDepth second =>
      rw [Chain.children_join] at hChild
      rcases List.mem_cons.mp hChild with rfl | hChild
      · exact ⟨ts, (List.prefix_append ts _).isInfix, _, _, _,
          first⟩
      · cases List.mem_singleton.mp hChild
        have hSuffix : us <:+ ts ++ op :: us :=
          (List.suffix_cons op us).trans
            (List.suffix_append ts _)
        exact ⟨us, hSuffix.isInfix, _, _, _, second⟩
  | @unary depth groups ts e op hOp inner =>
      cases List.mem_singleton.mp hChild
      exact ⟨ts, (List.suffix_cons op ts).isInfix, _, _, _,
        inner⟩
  | literal hLiteral => cases hChild
  | identifier hName => cases hChild
  | grouping hOpening inner hClosing =>
      cases List.mem_singleton.mp hChild
      exact ⟨_, ⟨[_], [_], rfl⟩, _, _, _, inner⟩

/- Each declaration of several is read from tokens of them. -/
theorem Decl.DerivesAll.exists_of_mem
    {endings : Endings}
    {d : Decl}
    {ds : List Decl}
    (h : Decl.DerivesAll endings groups depth ts ds)
    (hDecl : d ∈ ds) :
    ∃ us, us <:+: ts ∧
      Decl.Derives endings groups depth us d := by
  induction ds generalizing ts with
  | nil => cases hDecl
  | cons e ds ih =>
      cases h with
      | cons first more =>
          rcases List.mem_cons.mp hDecl with rfl | hMore
          · exact ⟨_, ⟨[], _, rfl⟩, first⟩
          · rcases ih more hMore with ⟨us, hInfix, hus⟩
            exact ⟨us,
              hInfix.trans (List.suffix_append _ _).isInfix,
              hus⟩

/- What a statement consists of is read from its tokens. -/
theorem Stmt.Derives.exists_child
    {s : Stmt}
    (h : Stmt.Derives .optional groups depth us s)
    (hChild : m ∈ (Node.stmt s).children) :
    ∃ vs, vs <:+: us ∧ m.DerivedFrom vs := by
  cases h with
  | @expression depth ts us e inner hEnd =>
      cases List.mem_singleton.mp hChild
      exact ⟨ts, (List.prefix_append ts us).isInfix, _, _, _,
        inner⟩
  | @print depth ts us e word hWord inner hEnd =>
      cases List.mem_singleton.mp hChild
      exact ⟨ts, ⟨[word], us, rfl⟩, _, _, _, inner⟩
  | @block depth ts us ds opening closing hOpening body
      hClosing hEnd =>
      rcases List.mem_map.mp hChild with ⟨d, hd, rfl⟩
      rcases body.exists_of_mem hd with ⟨vs, hInfix, hvs⟩
      have hBody : ts <:+: opening :: ts ++ closing :: us :=
        ⟨[opening], closing :: us, rfl⟩
      exact ⟨vs, hInfix.trans hBody, _, _, hvs⟩
  | @ifThen depth ts us condition body word opening closing
      hWord hOpening test hClosing first =>
      rcases List.mem_cons.mp hChild with rfl | hChild
      · exact ⟨ts, ⟨[word, opening], closing :: us, rfl⟩, _,
          _, _, test⟩
      · cases List.mem_singleton.mp hChild
        have hSuffix :
            us <:+ word :: opening :: ts ++ closing :: us :=
          (List.suffix_cons closing us).trans
            (List.suffix_append _ _)
        exact ⟨us, hSuffix.isInfix, _, _, first⟩
  | @ifElse depth ts us vs condition body other word opening
      closing separator hWord hOpening test hClosing first
      hBody hSeparator second =>
      simp only [Node.children, List.mem_cons,
        List.not_mem_nil, or_false] at hChild
      rcases hChild with rfl | rfl | rfl
      · exact ⟨ts,
          ⟨[word, opening], closing :: us ++ separator :: vs,
            by simp⟩,
          _, _, _, test⟩
      · exact ⟨us,
          ⟨word :: opening :: ts ++ [closing],
            separator :: vs, by simp⟩,
          _, _, first⟩
      · have hSuffix :
            vs <:+
              word :: opening :: ts ++ closing :: us ++
                separator :: vs :=
          (List.suffix_cons separator vs).trans
            (List.suffix_append _ _)
        exact ⟨vs, hSuffix.isInfix, _, _, second⟩

/- What a declaration consists of is read from its tokens. -/
theorem Decl.Derives.exists_child
    {d : Decl}
    (h : Decl.Derives .optional groups depth us d)
    (hChild : m ∈ (Node.decl d).children) :
    ∃ vs, vs <:+: us ∧ m.DerivedFrom vs := by
  cases h with
  | declare hWord hName hEnd => cases hChild
  | @declareWith depth ts us e word name equals hWord hName
      hEquals inner hEnd =>
      cases List.mem_singleton.mp hChild
      exact ⟨ts, ⟨[word, name, equals], us, rfl⟩, _, _, _,
        inner⟩
  | statement inner =>
      cases List.mem_singleton.mp hChild
      exact ⟨us, List.infix_rfl, _, _, inner⟩

namespace Node.DerivedFrom

/- What a tree consists of is read from its tokens. -/
theorem exists_child
    (h : n.DerivedFrom us)
    (hChild : m ∈ n.children) :
    ∃ vs, vs <:+: us ∧ m.DerivedFrom vs := by
  cases n with
  | expr e =>
      rcases h with ⟨level, depth, groups, h⟩
      exact h.exists_child hChild
  | stmt s =>
      rcases h with ⟨groups, depth, h⟩
      exact h.exists_child hChild
  | decl d =>
      rcases h with ⟨groups, depth, h⟩
      exact h.exists_child hChild

/- So is all that is within it. -/
theorem exists_within
    (h : n.DerivedFrom us)
    (hWithin : n.Within m) :
    ∃ vs, vs <:+: us ∧ m.DerivedFrom vs := by
  induction hWithin with
  | refl => exact ⟨us, List.infix_rfl, h⟩
  | tail hWithin hChild ih =>
      rcases ih with ⟨vs, hInfix, hvs⟩
      rcases hvs.exists_child hChild with
        ⟨ws, hInner, hws⟩
      exact ⟨ws, hInner.trans hInfix, hws⟩

end Node.DerivedFrom

------------------------------------------------------------
-- Lines of Trees
------------------------------------------------------------

/-
  The kinds of tokens that can come before a tree's first
  token that is kept.
-/
def Kind.opensTree : Kind → Bool
  | leftParen => true
  | leftBrace => true
  | printWord => true
  | ifWord => true
  | varWord => true
  | _ => false

namespace Token

/- The first token that a tree from some tokens could keep. -/
def shown?
    (ts : List Token) : Option Token :=
  ts.find? fun t => !t.kind.opensTree

/- The line that it shows; a closing brace shows none. -/
def shownLine
    (t : Token) : Option Int :=
  if t.kind = .rightBrace then none else some t.line

/- Tokens that open a tree are passed over. -/
theorem shown?_cons_of_opensTree
    (h : t.kind.opensTree = true)
    (ts : List Token) :
    shown? (t :: ts) = shown? ts := by
  simp [shown?, h]

/- Any other token is shown. -/
theorem shown?_cons
    (h : t.kind.opensTree = false)
    (ts : List Token) :
    shown? (t :: ts) = some t := by
  simp [shown?, h]

/- What is no closing brace shows its line. -/
theorem shownLine_of_ne
    (h : t.kind ≠ .rightBrace) :
    t.shownLine = some t.line :=
  if_neg h

/- What is shown stays so if tokens follow. -/
theorem shown?_append
    (h : shown? ts = some t)
    (us : List Token) :
    shown? (ts ++ us) = some t := by
  unfold shown? at h ⊢
  rw [List.find?_append, h]
  rfl

end Token

/- A joined expression is on the line of its first operand. -/
theorem Chain.line_join
    (c : Chain)
    (left right : Expr)
    (op : Token) :
    (c.join left op right).line = left.line := by
  cases c <;> rfl

/- Operators in front of operands are shown. -/
theorem Kind.opensTree_of_isPrefixOperator
    {k : Kind}
    (h : k.isPrefixOperator = true) :
    k.opensTree = false ∧ k ≠ .rightBrace := by
  cases k <;> simp_all [isPrefixOperator, opensTree]

/- Literals are shown. -/
theorem Kind.opensTree_of_isLiteral
    {k : Kind}
    (h : k.isLiteral = true) :
    k.opensTree = false ∧ k ≠ .rightBrace := by
  cases k <;> simp_all [isLiteral, opensTree]

/- An expression is on the line of what it shows first. -/
theorem Expr.Derives.exists_shown
    {e : Expr}
    (h : Derives level depth groups ts e) :
    ∃ t, Token.shown? ts = some t ∧
      t.kind ≠ .rightBrace ∧ e.line = .ok t.line := by
  induction h with
  | expression inner ih => exact ih
  | plain inner ih => exact ih
  | operand inner ih => exact ih
  | primary inner ih => exact ih
  | @assign _ _ _ name _ _ hName hEquals inner =>
      exact ⟨name, Token.shown?_cons (by rw [hName]; rfl) _,
        by simp [hName], rfl⟩
  | link first hOp hDepth second ihFirst =>
      rcases ihFirst with ⟨t, hShown, hBrace, hLine⟩
      rw [Chain.line_join]
      exact ⟨t, Token.shown?_append hShown _, hBrace, hLine⟩
  | @unary _ _ _ _ op hOp inner =>
      rcases Kind.opensTree_of_isPrefixOperator hOp with
        ⟨hShown, hBrace⟩
      exact ⟨op, Token.shown?_cons hShown _, hBrace, rfl⟩
  | @literal _ _ t hLiteral =>
      rcases Kind.opensTree_of_isLiteral hLiteral with
        ⟨hShown, hBrace⟩
      exact ⟨t, Token.shown?_cons hShown _, hBrace, rfl⟩
  | @identifier _ _ t hName =>
      exact ⟨t, Token.shown?_cons (by rw [hName]; rfl) _,
        by simp [hName], rfl⟩
  | grouping hOpening inner hClosing ih =>
      rcases ih with ⟨t, hShown, hBrace, hLine⟩
      rw [List.cons_append, Token.shown?_cons_of_opensTree
        (by rw [hOpening]; rfl)]
      exact ⟨t, Token.shown?_append hShown _, hBrace, hLine⟩

/- So is what starts with it, whatever comes next. -/
theorem Expr.Derives.exists_shown_append
    {e : Expr}
    (h : Derives level depth groups ts e)
    (us : List Token) :
    ∃ t, Token.shown? (ts ++ us) = some t ∧
      e.line.map some = .ok t.shownLine := by
  rcases h.exists_shown with ⟨t, hShown, hBrace, hLine⟩
  refine ⟨t, Token.shown?_append hShown us, ?_⟩
  rw [hLine, Token.shownLine_of_ne hBrace]
  rfl

/- A declaration is on the line of its name. -/
theorem Decl.exists_shown_declare
    {name : Token}
    (hName : name.kind = .identifier)
    (value : Option Expr)
    (ts : List Token) :
    ∃ t, Token.shown? (name :: ts) = some t ∧
      (Decl.declare name value).line = .ok t.shownLine := by
  have hBrace : name.kind ≠ .rightBrace := by
    rw [hName]
    decide
  refine ⟨name, Token.shown?_cons (by rw [hName]; rfl) ts, ?_⟩
  rw [Token.shownLine_of_ne hBrace, Decl.line]

mutual

/- A statement is on the line of what it shows first. -/
theorem Stmt.Derives.exists_shown
    {endings : Endings} {groups depth : Nat}
    {ts : List Token} {s : Stmt}
    (h : Stmt.Derives endings groups depth ts s) :
    ∃ t, Token.shown? ts = some t ∧
      s.line = .ok t.shownLine := by
  cases h with
  | expression inner hEnd => exact inner.exists_shown_append _
  | print hWord inner hEnd =>
      rw [List.cons_append, Token.shown?_cons_of_opensTree
        (by rw [hWord]; rfl)]
      exact inner.exists_shown_append _
  | block hOpening body hClosing hEnd =>
      rw [List.cons_append, Token.shown?_cons_of_opensTree
        (by rw [hOpening]; rfl)]
      exact Decl.DerivesAll.exists_shown body hClosing _
  | ifThen hWord hOpening test hClosing first =>
      rw [List.cons_append, List.cons_append,
        Token.shown?_cons_of_opensTree (by rw [hWord]; rfl),
        Token.shown?_cons_of_opensTree
          (by rw [hOpening]; rfl)]
      exact test.exists_shown_append _
  | ifElse hWord hOpening test hClosing first hBody =>
      simp only [List.cons_append, List.append_assoc]
      rw [Token.shown?_cons_of_opensTree (by rw [hWord]; rfl),
        Token.shown?_cons_of_opensTree
          (by rw [hOpening]; rfl)]
      exact test.exists_shown_append _

/- A declaration is on the line of what it shows first. -/
theorem Decl.Derives.exists_shown
    {endings : Endings} {groups depth : Nat}
    {ts : List Token} {d : Decl}
    (h : Decl.Derives endings groups depth ts d) :
    ∃ t, Token.shown? ts = some t ∧
      d.line = .ok t.shownLine := by
  cases h with
  | declare hWord hName hEnd =>
      rw [Token.shown?_cons_of_opensTree
        (by rw [hWord]; rfl)]
      exact Decl.exists_shown_declare hName _ _
  | declareWith hWord hName hEquals inner hEnd =>
      simp only [List.cons_append]
      rw [Token.shown?_cons_of_opensTree
        (by rw [hWord]; rfl)]
      exact Decl.exists_shown_declare hName _ _
  | statement inner =>
      exact Stmt.Derives.exists_shown inner

/- A block is on the line of what comes first inside of it. -/
theorem Decl.DerivesAll.exists_shown
    {endings : Endings} {groups depth : Nat}
    {ts : List Token} {ds : List Decl} {closing : Token}
    (h : Decl.DerivesAll endings groups depth ts ds)
    (hClosing : closing.kind = .rightBrace)
    (us : List Token) :
    ∃ t, Token.shown? (ts ++ closing :: us) = some t ∧
      (Stmt.block ds).line = .ok t.shownLine := by
  cases h with
  | nil =>
      refine ⟨closing,
        Token.shown?_cons (by rw [hClosing]; rfl) us, ?_⟩
      rw [Token.shownLine, if_pos hClosing, Stmt.line]
  | cons first more =>
      rcases Decl.Derives.exists_shown first with
        ⟨t, hShown, hLine⟩
      rw [List.append_assoc, Stmt.line]
      exact ⟨t, Token.shown?_append hShown _, hLine⟩

end

/- A tree is on the line of what its tokens show first. -/
theorem Node.DerivedFrom.exists_shown
    (h : n.DerivedFrom us) :
    ∃ t, Token.shown? us = some t ∧
      n.line = .ok t.shownLine := by
  cases n with
  | expr e =>
      rcases h with ⟨level, depth, groups, h⟩
      rcases h.exists_shown_append [] with ⟨t, hShown, hLine⟩
      rw [List.append_nil] at hShown
      exact ⟨t, hShown, hLine⟩
  | stmt s =>
      rcases h with ⟨groups, depth, h⟩
      exact h.exists_shown
  | decl d =>
      rcases h with ⟨groups, depth, h⟩
      exact h.exists_shown

------------------------------------------------------------
-- Trees of Sources
------------------------------------------------------------

/- Every tree of a program is read from some of its tokens. -/
theorem Node.exists_derivedFrom_of_within
    {items : List (Except ParseError Decl)}
    {d : Decl}
    (hSource : Decl.ofSource limits source = .ok items)
    (hDecl : d ∈ Decl.declarationsOf items)
    (hWithin : (Node.decl d).Within n) :
    ∃ us, us <:+: Token.ofSource source ∧
      n.DerivedFrom us := by
  have hScan := Decl.errorsOf_scan_of_ofSource hSource
  rw [Decl.ofSource_of_errorsOf hScan, Except.ok.injEq]
    at hSource
  have hItem : .ok d ∈ items := by
    rcases List.mem_filterMap.mp hDecl with
      ⟨item, hItem, hOk⟩
    cases item with
    | error e => cases hOk
    | ok e =>
        cases hOk
        exact hItem
  rw [← hSource] at hItem
  rcases Decl.derives_of_mem_parseAll hItem with
    ⟨us, hInfix, hus⟩
  have hDerived : (Node.decl d).DerivedFrom us :=
    ⟨_, _, hus⟩
  rcases hDerived.exists_within hWithin with
    ⟨vs, hInner, hvs⟩
  exact ⟨vs, hInner.trans hInfix, hvs⟩

/- What is shown is no earlier than the first token. -/
theorem Token.exists_first_le
    (hInfix : us <:+: ofSource source)
    (hShown : shown? us = some t) :
    ∃ first, us.head? = some first ∧ first.line ≤ t.line := by
  have hMem : t ∈ us := List.mem_of_find?_eq_some hShown
  cases us with
  | nil => cases hMem
  | cons first rest =>
      refine ⟨first, rfl, ?_⟩
      have hLines :=
        (rises_ofSource source).pairwise.sublist
          (hInfix.sublist.map line)
      rw [List.map_cons, List.pairwise_cons] at hLines
      rcases List.mem_cons.mp hMem with rfl | hMore
      · exact Int.le_refl t.line
      · exact hLines.1 _ (List.mem_map_of_mem hMore)

/-
  Every tree in the program of a source is read from some
  tokens of the source.  It is on the line of the first one
  that it could keep, or on none if that is a brace that
  closes a block.  So it is on the line of the first token
  that it is read from, which is no later, if and only if
  that token and the one it could keep are on one line.
-/
theorem Node.line_eq_line_first_iff
    {items : List (Except ParseError Decl)}
    {d : Decl}
    (hSource : Decl.ofSource limits source = .ok items)
    (hDecl : d ∈ Decl.declarationsOf items)
    (hWithin : (Node.decl d).Within n) :
    (∃ us, us <:+: Token.ofSource source ∧
        n.DerivedFrom us) ∧
      ∀ us, us <:+: Token.ofSource source →
        n.DerivedFrom us →
          ∃ first shown,
            us.head? = some first ∧
              Token.shown? us = some shown ∧
              n.line = .ok shown.shownLine ∧
              first.line ≤ shown.line ∧
              (n.line = .ok (some first.line) ↔
                shown.kind ≠ .rightBrace ∧
                  shown.line = first.line) := by
  refine ⟨exists_derivedFrom_of_within hSource hDecl hWithin,
    fun us hInfix hDerived => ?_⟩
  rcases hDerived.exists_shown with ⟨shown, hShown, hLine⟩
  rcases Token.exists_first_le hInfix hShown with
    ⟨first, hFirst, hLe⟩
  refine ⟨first, shown, hFirst, hShown, hLine, hLe, ?_⟩
  rw [hLine, Except.ok.injEq]
  unfold Token.shownLine
  split
  · simp_all
  · simp_all

/- A block that holds nothing is on no line. -/
theorem Node.line_eq_line_first_iff_emptyBlock :
    ∃ items d,
      Decl.ofSource .standard "\x7b\x7d" = .ok items ∧
        d ∈ Decl.declarationsOf items ∧
        (decl d).Within (stmt (.block [])) ∧
        (∃ us, us <:+: Token.ofSource "\x7b\x7d" ∧
          (stmt (.block [])).DerivedFrom us) ∧
        ∀ us, us <:+: Token.ofSource "\x7b\x7d" →
          (stmt (.block [])).DerivedFrom us →
            ∃ first shown,
              us.head? = some first ∧
                Token.shown? us = some shown ∧
                (stmt (.block [])).line =
                  .ok shown.shownLine ∧
                first.line ≤ shown.line ∧
                ((stmt (.block [])).line =
                    .ok (some first.line) ↔
                  shown.kind ≠ .rightBrace ∧
                    shown.line = first.line) := by
  have hSource :
      Decl.ofSource .standard "\x7b\x7d" =
        .ok [.ok (.statement (.block []))] := by
    cbv
  have hWithin :
      (decl (.statement (.block []))).Within
        (stmt (.block [])) :=
    .single List.mem_cons_self
  exact ⟨_, _, hSource, List.mem_cons_self, hWithin,
    line_eq_line_first_iff hSource List.mem_cons_self hWithin⟩

/-
  Parentheses may be opened on an earlier line than the one
  which the expression is on.
-/
theorem Node.line_ne_line_first_grouping :
    ∃ items d e us first,
      Decl.ofSource .standard "(\na)" = .ok items ∧
        d ∈ Decl.declarationsOf items ∧
        (decl d).Within (expr e) ∧
        us = Token.ofSource "(\na)" ∧
        (expr e).DerivedFrom us ∧
        us.head? = some first ∧
        first.line = 1 ∧ (expr e).line = .ok (some 2) := by
  have hSource :
      Decl.ofSource .standard "(\na)" =
        .ok [.ok (.statement (.expression (.grouping
          (.identifier
            ⟨.identifier, "a", .absent, 2⟩))))] := by
    cbv
  have hTokens :
      Token.ofSource "(\na)" =
        [⟨.leftParen, "(", .absent, 1⟩,
          ⟨.identifier, "a", .absent, 2⟩,
          ⟨.rightParen, ")", .absent, 2⟩] := by
    cbv
  have hName :
      Expr.Derives .unary 0 0
        [⟨.identifier, "a", .absent, 2⟩]
        (.identifier ⟨.identifier, "a", .absent, 2⟩) :=
    .primary (.identifier rfl)
  have hInner :
      Expr.Derives .expression 1 0
        [⟨.identifier, "a", .absent, 2⟩]
        (.identifier ⟨.identifier, "a", .absent, 2⟩) :=
    .expression (.plain (.operand (.operand (.operand
      (.operand (.operand (.operand hName)))))))
  have hGrouping :
      Expr.Derives .primary 1 1
        [⟨.leftParen, "(", .absent, 1⟩,
          ⟨.identifier, "a", .absent, 2⟩,
          ⟨.rightParen, ")", .absent, 2⟩]
        (.grouping
          (.identifier ⟨.identifier, "a", .absent, 2⟩)) :=
    .grouping rfl hInner rfl
  refine ⟨_, _, _, _, _, hSource, List.mem_cons_self, ?_,
    hTokens.symm, ⟨_, _, _, hGrouping⟩, rfl, rfl, rfl⟩
  exact Relation.ReflTransGen.single List.mem_cons_self
    |>.tail List.mem_cons_self

end Lox
