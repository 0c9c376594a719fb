import Lox.Proofs.Evaluation.Stops
import Lox.Proofs.Printing.Tokens

/-
  Errors of a run are on lines of the tree that is run.

  An operator blames its own line, and a name its own; what
  has no room is on the line of its first token.  Only empty
  blocks have no token, and those that were read have room.

  Key definitions include:
    * `Stop.IsOn`
    * `Expr.lines`, `Stmt.lines`, `Decl.lines`

  Key theorems include:
    * `Expr.isOn_eval`
    * `Stmt.Derives.isOn_exec`
    * `Decl.Derives.isOn_exec`
-/

namespace Lox

variable {α β : Type}
variable {places others : List Int} {line : Int}
variable {e : Expr} {s : Stop} {op : Token}

------------------------------------------------------------
-- Definitions
------------------------------------------------------------

/- The lines of an expression's tokens. -/
def Expr.lines
    (e : Expr) : List Int :=
  e.tokens.map Token.line

/- The lines of a statement's tokens, inside of `n` blocks. -/
def Stmt.lines
    (n : Nat)
    (s : Stmt) : List Int :=
  (s.tokens n).map fun p => p.2.line

/- The lines of a declaration's tokens. -/
def Decl.lines
    (n : Nat)
    (d : Decl) : List Int :=
  (d.tokens n).map fun p => p.2.line

/- The lines of the tokens of several declarations. -/
def Decl.allLines
    (n : Nat)
    (ds : List Decl) : List Int :=
  (Decl.allTokens n ds).map fun p => p.2.line

/- Whether a stop that is an error is on one of some lines. -/
def Stop.IsOn
    (places : List Int)
    (s : Stop) : Prop :=
  ∀ e, s = .error e → e.line ∈ places

/- A fault is not an error, and on no line. -/
theorem Stop.isOn_fault
    (places : List Int)
    (f : Fault) :
    (Stop.fault f).IsOn places := by
  intro e he
  cases he

/- What stops on some lines stops on more. -/
theorem Eval.StopsWithin.isOn_mono
    {step : Eval α}
    (h : StopsWithin (Stop.IsOn places) step)
    (hSubset : places ⊆ others) :
    StopsWithin (Stop.IsOn others) step :=
  h.mono fun _ hs e he => hSubset (hs e he)

------------------------------------------------------------
-- Operators
------------------------------------------------------------

namespace Expr

/- Blame on a line is on that line. -/
theorem isOn_of_blame
    {cause : String → RuntimeError.Cause}
    (hLine : line ∈ places)
    (h : (e.blame line cause : Except Stop α) = .error s) :
    s.IsOn places := by
  unfold blame at h
  split at h
  · cases h
    rintro d ⟨⟩
    exact hLine
  · cases h
    exact Stop.isOn_fault places _

/- Operands are blamed on the line of their operator. -/
theorem isOn_of_blameOperands
    {supported : List Ty}
    {x y : Ty}
    (hLine : op.line ∈ places)
    (h :
      (e.blameOperands op supported x y : Except Stop α) =
        .error s) :
    s.IsOn places := by
  unfold blameOperands at h
  split at h
  · exact isOn_of_blame hLine h
  · split at h
    · exact isOn_of_blame hLine h
    · exact isOn_of_blame hLine h

/- What is no truth value is blamed on the line given. -/
theorem isOn_of_truth
    {v : Value}
    (hLine : line ∈ places)
    (h : e.truth line v = .error s) :
    s.IsOn places := by
  unfold truth at h
  split at h
  · cases h
  · exact isOn_of_blame hLine h

/- An operator on one operand blames its own line. -/
theorem isOn_of_applyUnary
    {v : Value}
    (hLine : op.line ∈ places)
    (h : e.applyUnary op v = .error s) :
    s.IsOn places := by
  unfold applyUnary at h
  split at h
  · split at h
    · cases h
    · exact isOn_of_blame hLine h
  · split at h
    · cases h
    · exact isOn_of_blame hLine h
  · cases h
    exact Stop.isOn_fault places _

/- Comparing for equality blames the operator's line. -/
theorem isOn_of_applyEquality
    {x y : Value}
    (hLine : op.line ∈ places)
    (h : e.applyEquality op x y = .error s) :
    s.IsOn places := by
  unfold applyEquality at h
  split at h
  · exact isOn_of_blame hLine h
  · cases h

/- Comparing by size blames the operator's line. -/
theorem isOn_of_applyOrder
    {x y : Value}
    (hLine : op.line ∈ places)
    (h : e.applyOrder op x y = .error s) :
    s.IsOn places := by
  unfold applyOrder at h
  split at h
  · cases h
  · cases h
  · split at h
    · exact isOn_of_blame hLine h
    · exact isOn_of_blame hLine h

/- An operator on two operands blames its own line. -/
theorem isOn_of_applyBinary
    {x y : Value}
    (hLine : op.line ∈ places)
    (h : e.applyBinary op x y = .error s) :
    s.IsOn places := by
  have hEquality :
      ∀ f : Bool → Value,
        (e.applyEquality op x y).map f = .error s →
          s.IsOn places :=
    fun f hStop => isOn_of_applyEquality hLine
      (eq_error_of_map_eq_error hStop)
  have hOrder :
      (e.applyOrder op x y).map Value.bool = .error s →
        s.IsOn places :=
    fun hStop => isOn_of_applyOrder hLine
      (eq_error_of_map_eq_error hStop)
  cases hKind : op.kind <;>
    simp only [applyBinary, hKind] at h
  case equalEqual => exact hEquality _ h
  case bangEqual => exact hEquality _ h
  case greater => exact hOrder h
  case greaterEqual => exact hOrder h
  case less => exact hOrder h
  case lessEqual => exact hOrder h
  case plus =>
    split at h
    · cases h
    · cases h
    · exact isOn_of_blameOperands hLine h
  case minus =>
    split at h
    · cases h
    · exact isOn_of_blameOperands hLine h
  case star =>
    split at h
    · cases h
    · exact isOn_of_blameOperands hLine h
  case slash =>
    split at h
    · split at h
      · exact isOn_of_blame hLine h
      · cases h
    · exact isOn_of_blameOperands hLine h
  all_goals
    cases h
    exact Stop.isOn_fault places _

end Expr

------------------------------------------------------------
-- Expressions
------------------------------------------------------------

open Eval hiding ofExcept

namespace Expr

/- The lines of a join are those of its parts. -/
theorem lines_binary
    (left right : Expr)
    (op : Token) :
    (binary left op right).lines =
      left.lines ++ op.line :: right.lines := by
  simp [lines, tokens]

/- The same for the operators that may leave a part out. -/
theorem lines_logical
    (left right : Expr)
    (op : Token) :
    (logical left op right).lines =
      left.lines ++ op.line :: right.lines := by
  simp [lines, tokens]

/- The line of an expression is that of one of its tokens. -/
theorem line_mem_lines
    (h : e.line = .ok line) :
    line ∈ e.lines := by
  induction e with
  | literal t =>
      cases h
      exact List.mem_singleton_self t.line
  | identifier t =>
      cases h
      exact List.mem_singleton_self t.line
  | grouping e ih => exact ih h
  | unary op e ih =>
      cases h
      exact List.mem_cons_self
  | binary left op right ihLeft ihRight =>
      rw [lines_binary]
      exact List.mem_append_left _ (ihLeft h)
  | logical left op right ihLeft ihRight =>
      rw [lines_logical]
      exact List.mem_append_left _ (ihLeft h)
  | assign target e ih =>
      cases h
      exact List.mem_cons_self
  | hole => cases h

/- Without room, an expression is too deep on its line. -/
theorem isOn_tooDeep
    (e : Expr)
    (limit : Int) :
    (Stop.tooDeep limit (e.line.map some)).IsOn e.lines := by
  cases hLine : e.line with
  | error f => exact Stop.isOn_fault _ f
  | ok line =>
      rintro d ⟨⟩
      exact line_mem_lines hLine

/- A literal without a value is a fault. -/
theorem isOn_of_value
    {l : Literal}
    {stop : Stop}
    (h : l.value.mapError Stop.fault = .error stop) :
    stop.IsOn places := by
  cases hValue : l.value with
  | ok v =>
      rw [hValue] at h
      cases h
  | error f =>
      rw [hValue] at h
      cases h
      exact Stop.isOn_fault places f

/-
  An expression stops on the line of one of its tokens.  The
  induction is on the room, so that the want of it is a case
  of its own.
-/
theorem isOn_eval
    (e : Expr)
    (limit : Int)
    (room : Nat) :
    StopsWithin (Stop.IsOn e.lines) (e.eval limit room) := by
  induction room generalizing e with
  | zero =>
      rw [eval]
      exact stopsWithin_throw (isOn_tooDeep e limit)
  | succ room ih =>
      cases e with
      | literal t =>
          exact stopsWithin_ofExcept fun _ => isOn_of_value
      | identifier name =>
          apply stopsWithin_lookup
          rintro d ⟨⟩
          exact List.mem_singleton_self name.line
      | grouping e => exact ih e
      | unary op e =>
          have hInner := (ih e).isOn_mono
            (List.subset_cons_self op.line e.lines)
          exact hInner.bind (e.keepsShape_eval _ _) fun v =>
            stopsWithin_ofExcept fun s =>
              isOn_of_applyUnary List.mem_cons_self
      | binary left op right =>
          rw [lines_binary]
          have hLeft := (ih left).isOn_mono
            (List.subset_append_left left.lines
              (op.line :: right.lines))
          have hRight := (ih right).isOn_mono
            (List.subset_append_of_subset_right left.lines
              (List.subset_cons_self op.line right.lines))
          exact hLeft.bind (left.keepsShape_eval _ _) fun x =>
            hRight.bind (right.keepsShape_eval _ _) fun y =>
              stopsWithin_ofExcept fun s =>
                isOn_of_applyBinary (by simp)
      | logical left op right =>
          rw [lines_logical]
          have hLeft := (ih left).isOn_mono
            (List.subset_append_left left.lines
              (op.line :: right.lines))
          have hRight := (ih right).isOn_mono
            (List.subset_append_of_subset_right left.lines
              (List.subset_cons_self op.line right.lines))
          exact hLeft.bind (left.keepsShape_eval _ _)
            (stopsWithin_evalRight_of_truth
              (fun v s => isOn_of_truth (by simp)) hRight
              (right.keepsShape_eval _ _))
      | assign target e =>
          have hInner := (ih e).isOn_mono
            (List.subset_cons_self target.line e.lines)
          refine hInner.bind (e.keepsShape_eval _ _) fun v =>
            stopsWithin_assign v ?_
          rintro d ⟨⟩
          exact List.mem_cons_self
      | hole => exact stopsWithin_throw (Stop.isOn_fault _ _)

/- So does a condition. -/
theorem isOn_evalCondition
    (c : Expr)
    (limit : Int)
    (room : Nat) :
    StopsWithin (Stop.IsOn c.lines)
      (c.evalCondition limit room) :=
  (c.isOn_eval limit room).bind (c.keepsShape_eval _ _)
    (stopsWithin_decide_of_truth
      (fun _ hLine _ _ =>
        isOn_of_truth (line_mem_lines hLine))
      fun f _ => Stop.isOn_fault _ f)

end Expr

------------------------------------------------------------
-- Statements and Declarations
------------------------------------------------------------

variable {endings : Endings} {groups depth room : Nat}
variable {ts : List Token}

/- The lines of an expression, as part of a statement. -/
theorem Expr.map_tokensIn
    (n : Nat)
    (e : Expr) :
    ((e.tokensIn n).map fun p => p.2.line) = e.lines := by
  simp [tokensIn, lines]

/- The lines of a conditional are those of its parts. -/
theorem Stmt.lines_ifThen
    (n : Nat)
    (c : Expr)
    (body : Stmt) :
    (Stmt.ifThen c body).lines n =
      c.lines ++ body.lines n := by
  rw [lines, tokens, List.map_append, Expr.map_tokensIn]
  rfl

/- The same when there is an alternative. -/
theorem Stmt.lines_ifElse
    (n : Nat)
    (c : Expr)
    (body other : Stmt) :
    (Stmt.ifElse c body other).lines n =
      c.lines ++ (body.lines n ++ other.lines n) := by
  rw [lines, tokens, List.map_append, List.map_append,
    Expr.map_tokensIn, List.append_assoc]
  rfl

/- A declaration stops on its lines if statements do. -/
theorem Decl.Derives.isOn_exec_of
    {limit : Int}
    (hStatement :
      ∀ ts s,
        Stmt.Derives endings groups depth ts s →
          ∀ n, StopsWithin (Stop.IsOn (s.lines n))
            (s.exec limit room))
    {d : Decl}
    (h : Decl.Derives endings groups depth ts d)
    (n : Nat) :
    StopsWithin (Stop.IsOn (d.lines n))
      (d.exec limit room) := by
  cases h with
  | @declare _ us word name hWord hName hEnd =>
      rw [Decl.exec]
      exact stopsWithin_define name .nil
  | @declareWith _ ts us e word name equals hWord hName
      hEquals inner hEnd =>
      have hLines :
          (Decl.declare name (some e)).lines n =
            name.line :: e.lines := by
        rw [Decl.lines, Decl.tokens, List.map_cons,
          Expr.map_tokensIn]
      rw [Decl.exec, hLines]
      exact ((e.isOn_eval limit room).isOn_mono
        (List.subset_cons_self _ _)).bind
          (e.keepsShape_eval _ _) (stopsWithin_define name)
  | @statement _ ts s inner =>
      have hLines :
          (Decl.statement s).lines n = s.lines n := by
        rw [Decl.lines, Decl.tokens, Stmt.lines]
      rw [Decl.exec, hLines]
      exact hStatement _ _ inner n

/- Declarations stop on their lines if each of them does. -/
theorem Decl.DerivesAll.isOn_execAll_of
    {limit : Int}
    {n : Nat}
    (hDeclaration :
      ∀ ts d,
        Decl.Derives endings groups depth ts d →
          StopsWithin (Stop.IsOn (d.lines n))
            (d.exec limit room))
    {ds : List Decl}
    (h : Decl.DerivesAll endings groups depth ts ds) :
    StopsWithin (Stop.IsOn (Decl.allLines n ds))
      (Decl.execAll limit ds room) := by
  induction ds generalizing ts with
  | nil =>
      rw [Decl.execAll]
      exact stopsWithin_pure _
  | cons d ds ih =>
      have hLines :
          Decl.allLines n (d :: ds) =
            d.lines n ++ Decl.allLines n ds := by
        rw [Decl.allLines, Decl.allTokens, List.map_append]
        rfl
      cases h with
      | cons first more =>
          rw [Decl.execAll, hLines]
          have hFirst := (hDeclaration _ _ first).isOn_mono
            (List.subset_append_left (d.lines n)
              (Decl.allLines n ds))
          exact hFirst.bind (d.keepsShape_exec _ _) fun _ =>
            (ih more).isOn_mono
              (List.subset_append_right _ _)

/-
  A statement that was read with no more levels than there is
  room stops on the line of one of its tokens.  The induction
  is on the levels, as blocks hold lists of declarations.
-/
theorem Stmt.Derives.isOn_exec
    {s : Stmt}
    (h : Stmt.Derives endings groups depth ts s)
    (hRoom : depth ≤ room)
    (limit : Int)
    (n : Nat) :
    StopsWithin (Stop.IsOn (s.lines n))
      (s.exec limit room) := by
  induction depth generalizing ts s room n with
  | zero => cases h
  | succ depth ih =>
      cases room with
      | zero => cases hRoom
      | succ room =>
          have hLess : depth ≤ room :=
            Nat.le_of_succ_le_succ hRoom
          cases h with
          | @expression _ ts us e inner hEnd =>
              rw [Stmt.lines, Stmt.tokens,
                Expr.map_tokensIn, Stmt.exec]
              exact e.isOn_eval limit room
          | @print _ ts us e word hWord inner hEnd =>
              rw [Stmt.lines, Stmt.tokens,
                Expr.map_tokensIn, Stmt.exec]
              exact (e.isOn_eval limit room).bind
                (e.keepsShape_eval _ _) stopsWithin_print
          | @block _ ts us ds opening closing hOpening body
              hClosing hEnd =>
              rw [Stmt.lines, Stmt.tokens, Stmt.exec]
              have hBody :
                  StopsWithin
                    (Stop.IsOn (Decl.allLines (n + 1) ds))
                    (Decl.execAll limit ds room) :=
                body.isOn_execAll_of fun _ _ hd =>
                  hd.isOn_exec_of
                    (fun _ _ hs => ih hs hLess) (n + 1)
              exact hBody.inScope
                (Decl.keepsShape_execAll limit ds room)
          | @ifThen _ ts us c body word opening closing hWord
              hOpening test hClosing first =>
              rw [Stmt.lines_ifThen, Stmt.exec]
              have hTest :=
                (c.isOn_evalCondition limit room).isOn_mono
                  (List.subset_append_left _ (body.lines n))
              refine hTest.bind
                (c.keepsShape_evalCondition _ _) fun b => ?_
              split
              · exact (ih first hLess n).isOn_mono
                  (List.subset_append_right _ _)
              · exact stopsWithin_pure _
          | @ifElse _ ts us vs c body other word opening
              closing separator hWord hOpening test hClosing
              first hBody hSeparator second =>
              rw [Stmt.lines_ifElse, Stmt.exec]
              have hTest :=
                (c.isOn_evalCondition limit room).isOn_mono
                  (List.subset_append_left _
                    (body.lines n ++ other.lines n))
              refine hTest.bind
                (c.keepsShape_evalCondition _ _) fun b => ?_
              split
              · exact (ih first hLess n).isOn_mono
                  (List.subset_append_of_subset_right _
                    (List.subset_append_left _ _))
              · exact (ih second hLess n).isOn_mono
                  (List.subset_append_of_subset_right _
                    (List.subset_append_right _ _))

/- So does a declaration. -/
theorem Decl.Derives.isOn_exec
    {d : Decl}
    (h : Decl.Derives endings groups depth ts d)
    (hRoom : depth ≤ room)
    (limit : Int)
    (n : Nat) :
    StopsWithin (Stop.IsOn (d.lines n))
      (d.exec limit room) :=
  h.isOn_exec_of
    (fun _ _ hs => hs.isOn_exec hRoom limit) n

end Lox
