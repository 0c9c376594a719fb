import Lox.Proofs.Evaluation.Reach
import Lox.Proofs.Evaluation.Writes

/-
  What evaluation changes, and what it leaves alone.

  The writes of a tree are those of its parts, as far as they
  are run.  An expression or a statement writes to names that
  are bound, as what is declared in a block is gone when the
  block ends; only a declaration binds a name of its own.

  Key definitions include:
    * `Expr.writes`, `Stmt.writes`, `Decl.writes`
    * `Decl.binding?`

  Key theorems include:
    * `Expr.logs_eval`
    * `Stmt.logs_exec`
    * `Decl.logs_exec`
    * `Decl.evaluate_frame`
-/

namespace Lox

variable {α : Type}

open Eval hiding ofExcept

------------------------------------------------------------
-- Writes of Trees
------------------------------------------------------------

/- What an expression writes, evaluated with some room. -/
def Expr.writes
    (limit : Int) :
    Expr → (room : Nat) → Machine → List Write
  | _, 0 => fun _ => []
  | .literal _, _ + 1 => fun _ => []
  | .identifier _, _ + 1 => fun _ => []
  | .grouping e, room + 1 => e.writes limit room
  | .unary _ e, room + 1 => e.writes limit room
  | .binary left _ right, room + 1 =>
      writesThen (left.writes limit room)
        (left.eval limit room) fun _ =>
          right.writes limit room
  | .logical left op right, room + 1 =>
      writesThen (left.writes limit room)
        (left.eval limit room) fun x m =>
          if op.goesOn x then right.writes limit room m
          else []
  | .assign target e, room + 1 =>
      writesThen (e.writes limit room) (e.eval limit room)
        (assignment target)
  | .hole, _ + 1 => fun _ => []

mutual

/- What a statement writes, run with some room. -/
def Stmt.writes
    (limit : Int) :
    Stmt → (room : Nat) → Machine → List Write
  | _, 0 => fun _ => []
  | .expression e, room + 1 => e.writes limit room
  | .print e, room + 1 => e.writes limit room
  | .ifThen c s, room + 1 =>
      writesThen (c.writes limit room)
        (c.evalCondition limit room) fun b m =>
          if b then s.writes limit room m else []
  | .ifElse c s t, room + 1 =>
      writesThen (c.writes limit room)
        (c.evalCondition limit room) fun b m =>
          if b then s.writes limit room m
          else t.writes limit room m
  | .block ds, room + 1 => fun m =>
      (Decl.writesAll limit ds room
          { m with env := m.env.push }).filter
        fun w => w.scope < m.env.scopes.length
  | .hole, _ + 1 => fun _ => []

/- What a declaration writes, run with some room. -/
def Decl.writes
    (limit : Int) :
    Decl → (room : Nat) → Machine → List Write
  | .declare name none, _ => definition name .nil
  | .declare name (some e), room =>
      writesThen (e.writes limit room) (e.eval limit room)
        (definition name)
  | .statement s, room => s.writes limit room
  | .hole, _ => fun _ => []

/- What declarations write, run in order. -/
def Decl.writesAll
    (limit : Int) :
    List Decl → (room : Nat) → Machine → List Write
  | [], _ => fun _ => []
  | d :: ds, room =>
      writesThen (d.writes limit room) (d.exec limit room)
        fun _ => Decl.writesAll limit ds room

end

variable {declares : Prop}

/- After a left operand, the right one may write. -/
theorem Expr.logs_evalRight
    {right : Eval Value}
    {writes : Machine → List Write}
    (h : Logs declares right writes)
    (whole : Expr)
    (op : Token)
    (x : Value) :
    Logs declares (whole.evalRight op right x)
      fun m => if op.goesOn x then writes m else [] := by
  cases hGo : op.goesOn x with
  | true =>
      have hRight := h.bind fun y =>
        (logs_ofExcept (whole.truth op.line y)).bind
          fun b => logs_pure (Value.bool b)
      simp only [writesThen_nil] at hRight
      rw [evalRight_of_goesOn whole _ hGo]
      exact hRight
  | false =>
      rw [evalRight_of_not_goesOn whole _ hGo]
      exact logs_ofExcept _

/- An expression writes to names that are bound. -/
theorem Expr.logs_eval
    (limit : Int)
    (e : Expr)
    (room : Nat) :
    Logs declares (e.eval limit room)
      (e.writes limit room) := by
  induction e generalizing room with
  | literal t =>
      cases room with
      | zero => exact logs_throw _
      | succ room => exact logs_ofExcept _
  | identifier name =>
      cases room with
      | zero => exact logs_throw _
      | succ room => exact logs_lookup name
  | grouping e ih =>
      cases room with
      | zero => exact logs_throw _
      | succ room => exact ih room
  | unary op e ih =>
      cases room with
      | zero => exact logs_throw _
      | succ room =>
          have hStep := (ih room).bind fun v =>
            logs_ofExcept ((Expr.unary op e).applyUnary op v)
          rw [writesThen_nil] at hStep
          exact hStep
  | binary left op right ihLeft ihRight =>
      cases room with
      | zero => exact logs_throw _
      | succ room =>
          have hStep := (ihLeft room).bind fun x =>
            (ihRight room).bind fun y =>
              logs_ofExcept
                ((Expr.binary left op right).applyBinary
                  op x y)
          simp only [writesThen_nil] at hStep
          exact hStep
  | logical left op right ihLeft ihRight =>
      cases room with
      | zero => exact logs_throw _
      | succ room =>
          exact (ihLeft room).bind
            (logs_evalRight (ihRight room)
              (logical left op right) op)
  | assign target e ih =>
      cases room with
      | zero => exact logs_throw _
      | succ room => exact (ih room).bind (logs_assign target)
  | hole =>
      cases room with
      | zero => exact logs_throw _
      | succ room => exact logs_throw _

/- A condition writes what it writes as an expression. -/
theorem Expr.logs_evalCondition
    (limit : Int)
    (c : Expr)
    (room : Nat) :
    Logs declares (c.evalCondition limit room)
      (c.writes limit room) := by
  have hDecide : ∀ v,
      Logs declares (c.decide v) fun _ => [] := by
    intro v
    unfold decide
    split
    · exact logs_pure _
    · split
      · exact logs_throw _
      · exact logs_ofExcept _
  have hStep := (c.logs_eval limit room).bind hDecide
  rw [writesThen_nil] at hStep
  exact hStep

/- Of two steps, the one that is chosen writes. -/
theorem Eval.Logs.ite
    {step other : Eval α}
    {writes otherWrites : Machine → List Write}
    (h : Logs declares step writes)
    (hOther : Logs declares other otherWrites)
    (b : Bool) :
    Logs declares (if b then step else other) fun m =>
      if b then writes m else otherWrites m := by
  cases b with
  | true => exact h
  | false => exact hOther

mutual

/- A statement writes to names that are bound. -/
theorem Stmt.logs_exec
    (limit : Int) :
    ∀ (s : Stmt) (room : Nat),
      Logs False (s.exec limit room) (s.writes limit room)
  | s, 0 => by
      rw [Stmt.exec, Stmt.writes]
      exact logs_throw _
  | .expression e, room + 1 => by
      rw [Stmt.exec, Stmt.writes]
      exact e.logs_eval limit room
  | .print e, room + 1 => by
      rw [Stmt.exec, Stmt.writes, ← writesThen_nil
        (e.writes limit room) (e.eval limit room)]
      exact (e.logs_eval limit room).bind logs_print
  | .ifThen c s, room + 1 => by
      rw [Stmt.exec, Stmt.writes]
      exact (c.logs_evalCondition limit room).bind
        ((s.logs_exec limit room).ite (logs_pure _))
  | .ifElse c s t, room + 1 => by
      rw [Stmt.exec, Stmt.writes]
      exact (c.logs_evalCondition limit room).bind
        ((s.logs_exec limit room).ite
          (t.logs_exec limit room))
  | .block ds, room + 1 => by
      rw [Stmt.exec, Stmt.writes]
      exact (Decl.logs_execAll limit ds room).inScope
        (Decl.keepsShape_execAll limit ds room)
  | .hole, room + 1 => by
      rw [Stmt.exec, Stmt.writes]
      exact logs_throw _

/- A declaration may also write to the current scope. -/
theorem Decl.logs_exec
    (limit : Int) :
    ∀ (d : Decl) (room : Nat),
      Logs True (d.exec limit room) (d.writes limit room)
  | .declare name none, room => by
      rw [Decl.exec, Decl.writes]
      exact logs_define name .nil
  | .declare name (some e), room => by
      rw [Decl.exec, Decl.writes]
      exact (e.logs_eval limit room).bind (logs_define name)
  | .statement s, room => by
      rw [Decl.exec, Decl.writes]
      exact (s.logs_exec limit room).mono
  | .hole, room => by
      rw [Decl.exec, Decl.writes]
      exact logs_throw _

/- So may declarations that are run in order. -/
theorem Decl.logs_execAll
    (limit : Int) :
    ∀ (ds : List Decl) (room : Nat),
      Logs True (Decl.execAll limit ds room)
        (Decl.writesAll limit ds room)
  | [], room => by
      rw [Decl.execAll, Decl.writesAll]
      exact logs_pure _
  | d :: ds, room => by
      rw [Decl.execAll, Decl.writesAll]
      exact (d.logs_exec limit room).bind fun _ =>
        Decl.logs_execAll limit ds room

end

------------------------------------------------------------
-- Declarations
------------------------------------------------------------

namespace Decl

variable {limit : Int} {d : Decl} {m mid stopped : Machine}
variable {name : Token} {e : Expr} {v : Value} {s : Stop}
variable {n : String}

/-
  The name that evaluation of a declaration binds, and its
  value: nothing if there is no initial value.  If the initial
  value stops, no name is bound.
-/
def binding?
    (limit : Int)
    (m : Machine) : Decl → Option (String × Value)
  | declare name none => some (name.lexeme, .nil)
  | declare name (some e) =>
      match e.eval limit limit.toNat m with
      | .ok v _ => some (name.lexeme, v)
      | .error _ _ => none
  | statement _ => none
  | hole => none

/- A name is declared after its initial value is known. -/
theorem evaluate_declare_of_ok
    (name : Token)
    (h : e.eval limit limit.toNat m = .ok v mid) :
    (declare name (some e)).evaluate limit m =
      define name v mid := by
  unfold evaluate
  rw [exec, bind_apply, h]

/- If its initial value stops, a name is not declared. -/
theorem evaluate_declare_of_error
    (name : Token)
    (h : e.eval limit limit.toNat m = .error s stopped) :
    (declare name (some e)).evaluate limit m =
      .error s stopped := by
  unfold evaluate
  rw [exec, bind_apply, h]

/- And only the initial value has written anything. -/
theorem writes_declare_of_error
    (name : Token)
    (h : e.eval limit limit.toNat m = .error s stopped) :
    (declare name (some e)).writes limit limit.toNat m =
      e.writes limit limit.toNat m := by
  rw [writes]
  unfold writesThen
  rw [h]

/-
  A declaration that binds a name is run as far as its value,
  which declares nothing, and then binds the name.
-/
theorem exists_define_of_binding?
    (hCurrent : m.env.HasCurrent)
    (h : d.binding? limit m = some (n, v)) :
    ∃ name mid,
      name.lexeme = n ∧
        Environment.SameShape m.env mid.env ∧
        (∀ i other,
          mid.env.Binds i other ↔ m.env.Binds i other) ∧
        d.evaluate limit m = define name v mid := by
  unfold binding? at h
  split at h
  · rename_i name
    cases h
    refine ⟨name, m, rfl, .refl _, fun _ _ => Iff.rfl, ?_⟩
    unfold evaluate
    rw [exec]
  · rename_i name e
    split at h
    · rename_i v mid hEval
      cases h
      have hShape := e.keepsShape_eval limit limit.toNat m
        hCurrent.scopes_ne_nil
      have hBinds :=
        (e.logs_eval limit limit.toNat).binds_iff hCurrent
      rw [hEval] at hShape hBinds
      exact ⟨name, mid, rfl, hShape, hBinds,
        evaluate_declare_of_ok name hEval⟩
    · cases h
  · cases h
  · cases h

/- Otherwise evaluation leaves the same names bound. -/
theorem binds_evaluate_of_binding?
    (hCurrent : m.env.HasCurrent)
    (h : d.binding? limit m = none)
    (i : Nat)
    (other : String) :
    (final (d.evaluate limit m)).env.Binds i other ↔
      m.env.Binds i other := by
  unfold binding? at h
  split at h
  · cases h
  · rename_i name e
    split at h
    · cases h
    · rename_i s stopped hEval
      have hBinds :=
        (e.logs_eval limit limit.toNat).binds_iff hCurrent
      rw [hEval] at hBinds
      rw [evaluate_declare_of_error name hEval]
      exact hBinds i other
  · rename_i s
    unfold evaluate
    rw [exec]
    exact (s.logs_exec limit limit.toNat).binds_iff hCurrent
      i other
  · unfold evaluate
    rw [exec]
    rfl

/-
  However the evaluation of a declaration ends, in a value,
  an error or a fault, and whatever its tree is:

  The same scopes are there, with the same links, and the
  same one is current.  All that was written to them up to
  the end is there, and nothing else has changed.  They bind
  the same names, and the one that the declaration binds, in
  the current scope and to its value, if there is one.  If an
  initial value stops, that is the end of the declaration:
  nothing is written after what the initial value wrote.
-/
theorem evaluate_frame
    {after : Machine}
    (hCurrent : m.env.HasCurrent)
    (hRun : final (d.evaluate limit m) = after) :
    Environment.SameShape m.env after.env ∧
      after.env =
        m.env.writeAll (d.writes limit limit.toNat m) ∧
      (∀ i n, after.env.Binds i n ↔
        m.env.Binds i n ∨
          i = m.env.current ∧
            ∃ v, d.binding? limit m = some (n, v)) ∧
      (∀ n v, d.binding? limit m = some (n, v) →
        d.evaluate limit m = .ok v after ∧
          after.env.valueIn m.env.current n = some v) ∧
      ∀ name e s stopped, d = declare name (some e) →
        e.eval limit limit.toNat m = .error s stopped →
          d.evaluate limit m = .error s stopped ∧
            d.writes limit limit.toNat m =
              e.writes limit limit.toNat m := by
  subst hRun
  have hWrites :=
    (d.logs_exec limit limit.toNat).env_eq m hCurrent
  refine ⟨?_, hWrites, ?_, ?_, ?_⟩
  · exact d.keepsShape_exec limit limit.toNat m
      hCurrent.scopes_ne_nil
  · intro i n
    cases hBinding : d.binding? limit m with
    | none =>
        rw [binds_evaluate_of_binding? hCurrent hBinding]
        simp
    | some binding =>
        rcases binding with ⟨bound, v⟩
        rcases
            exists_define_of_binding? hCurrent hBinding with
          ⟨name, mid, rfl, hShape, hBinds, hEvaluate⟩
        have hMid := hShape.hasCurrent hCurrent
        have hDefine :=
          hMid.binds_define name.lexeme v i n
        rw [hBinds, ← hShape.current] at hDefine
        rw [hEvaluate]
        refine hDefine.trans (or_congr_right ?_)
        simp [eq_comm]
  · intro n v hBinding
    rcases exists_define_of_binding? hCurrent hBinding with
      ⟨name, mid, rfl, hShape, -, hEvaluate⟩
    rw [hEvaluate, hShape.current]
    exact ⟨rfl, (hShape.hasCurrent hCurrent).valueIn_define
      name.lexeme v⟩
  · rintro name e s stopped rfl hEval
    exact ⟨evaluate_declare_of_error name hEval,
      writes_declare_of_error name hEval⟩

/- A scope in which `y` is nothing, and one within it. -/
def nestedScopes : Machine :=
  ⟨⟨[⟨none, [("y", .nil)]⟩, ⟨some 0, []⟩], 1⟩, []⟩

/- The declaration `var x = -(y = true)`. -/
def stoppedDeclaration : Decl :=
  declare ⟨.identifier, "x", .absent, 1⟩
    (some (.unary ⟨.minus, "-", .absent, 1⟩
      (.grouping (.assign ⟨.identifier, "y", .absent, 1⟩
        (.literal ⟨.trueWord, "true", .bool true, 1⟩)))))

/-
  The initial value stops after it has assigned to `y`: the
  assignment stays, and `x` is not bound.
-/
theorem evaluate_frame_stoppedDeclaration :
    nestedScopes.env.HasCurrent ∧
      ∃ after,
        final (stoppedDeclaration.evaluate 200 nestedScopes) =
            after ∧
          Environment.SameShape nestedScopes.env after.env ∧
          after.env =
            nestedScopes.env.writeAll
              [⟨0, "y", .bool true⟩] ∧
          ∀ i n, after.env.Binds i n ↔
            nestedScopes.env.Binds i n := by
  have hCurrent : nestedScopes.env.HasCurrent :=
    Nat.lt_succ_self 1
  have hBinding :
      stoppedDeclaration.binding? 200 nestedScopes =
        none := by
    decide +kernel
  have hWrites :
      stoppedDeclaration.writes 200 (200 : Int).toNat
          nestedScopes =
        [⟨0, "y", .bool true⟩] := by
    decide +kernel
  rcases
      @evaluate_frame 200 stoppedDeclaration nestedScopes _
        hCurrent rfl with
    ⟨hShape, hEnv, hBinds, -, -⟩
  rw [hWrites] at hEnv
  refine ⟨hCurrent, _, rfl, hShape, hEnv, ?_⟩
  intro i n
  rw [hBinds i n, hBinding]
  simp

end Decl

end Lox
