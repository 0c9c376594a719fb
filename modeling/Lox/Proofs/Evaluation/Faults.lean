import Lox.Proofs.Evaluation.Stops
import Lox.Proofs.Evaluation.WellFormed

/-
  Well-formed trees do not fault: whatever stops them is an
  error of the program.

  Key theorems include:
    * `Expr.stopsWithin_eval`
    * `Stmt.stopsWithin_exec`
    * `Decl.stopsWithin_exec`
-/

namespace Lox

open Eval hiding ofExcept

------------------------------------------------------------
-- Trees
------------------------------------------------------------

/- Without room, well-formed expressions are an error. -/
theorem Expr.isError_tooDeep
    {e : Expr}
    (h : e.WellFormed)
    (limit : Int) :
    Stop.IsError (Stop.tooDeep limit (e.line.map some)) := by
  rcases exists_tooDeep_eq h.missing?_eq_none limit with
    ⟨line, hStop⟩
  rw [hStop]
  exact ⟨_, rfl⟩

/- Without room, well-formed statements are an error. -/
theorem Stmt.isError_tooDeep
    {s : Stmt}
    (h : s.WellFormed)
    (limit : Int) :
    Stop.IsError (Stop.tooDeep limit s.line) := by
  rcases exists_tooDeep_eq h.missing?_eq_none limit with
    ⟨line, hStop⟩
  rw [hStop]
  exact ⟨_, rfl⟩

/- A well-formed expression only stops with errors. -/
theorem Expr.stopsWithin_eval
    {e : Expr}
    (h : e.WellFormed)
    (limit : Int)
    (room : Nat) :
    StopsWithin Stop.IsError (e.eval limit room) := by
  induction e generalizing room with
  | literal t =>
      cases room with
      | zero => exact stopsWithin_throw (isError_tooDeep h _)
      | succ room =>
          rcases h with ⟨v, hv⟩
          rw [eval, hv]
          exact stopsWithin_ofExcept nofun
  | identifier name =>
      cases room with
      | zero => exact stopsWithin_throw (isError_tooDeep h _)
      | succ room => exact stopsWithin_lookup ⟨_, rfl⟩
  | grouping e ih =>
      cases room with
      | zero => exact stopsWithin_throw (isError_tooDeep h _)
      | succ room => exact ih h room
  | unary op e ih =>
      cases room with
      | zero => exact stopsWithin_throw (isError_tooDeep h _)
      | succ room =>
          refine (ih h.2 room).bind (e.keepsShape_eval _ _)
            fun v => stopsWithin_ofExcept fun s hStop => ?_
          rcases blames_of_applyUnary hStop with hBlames | hOp
          · exact hBlames.isError h.missing?_eq_none
          · rw [h.1] at hOp
            cases hOp.1
  | binary left op right ihLeft ihRight =>
      cases room with
      | zero => exact stopsWithin_throw (isError_tooDeep h _)
      | succ room =>
          refine (ihLeft h.2.1 room).bind
            (left.keepsShape_eval _ _) fun x =>
              (ihRight h.2.2 room).bind
                (right.keepsShape_eval _ _) fun y =>
                  stopsWithin_ofExcept fun s hStop => ?_
          rcases blames_of_applyBinary hStop with
            hBlames | hOp
          · exact hBlames.isError h.missing?_eq_none
          · rw [h.1] at hOp
            cases hOp.1
  | logical left op right ihLeft ihRight =>
      cases room with
      | zero => exact stopsWithin_throw (isError_tooDeep h _)
      | succ room =>
          exact (ihLeft h.1 room).bind
            (left.keepsShape_eval _ _)
            (stopsWithin_evalRight op
              (fun _ hBlames =>
                hBlames.isError h.missing?_eq_none)
              (ihRight h.2 room)
              (right.keepsShape_eval _ _))
  | assign target e ih =>
      cases room with
      | zero => exact stopsWithin_throw (isError_tooDeep h _)
      | succ room =>
          exact (ih h room).bind (e.keepsShape_eval _ _)
            fun v => stopsWithin_assign v ⟨_, rfl⟩
  | hole => exact h.elim

/- A well-formed condition only stops with errors. -/
theorem Expr.stopsWithin_evalCondition
    {c : Expr}
    (h : c.WellFormed)
    (limit : Int)
    (room : Nat) :
    StopsWithin Stop.IsError (c.evalCondition limit room) := by
  rcases exists_line_eq_ok h.missing?_eq_none with
    ⟨line, hLine⟩
  refine (stopsWithin_eval h limit room).bind
    (c.keepsShape_eval _ _)
    (stopsWithin_decide (fun _ hBlames =>
      hBlames.isError h.missing?_eq_none) ?_)
  intro f hFault
  rw [hLine] at hFault
  cases hFault

mutual

/- A well-formed statement only stops with errors. -/
theorem Stmt.stopsWithin_exec
    (limit : Int) :
    ∀ {s : Stmt}, s.WellFormed → ∀ room : Nat,
      StopsWithin Stop.IsError (s.exec limit room)
  | s, h, 0 => by
      rw [Stmt.exec]
      exact stopsWithin_throw (Stmt.isError_tooDeep h limit)
  | .expression e, h, room + 1 => by
      rw [Stmt.WellFormed] at h
      rw [Stmt.exec]
      exact e.stopsWithin_eval h limit room
  | .print e, h, room + 1 => by
      rw [Stmt.WellFormed] at h
      rw [Stmt.exec]
      exact (e.stopsWithin_eval h limit room).bind
        (e.keepsShape_eval _ _) stopsWithin_print
  | .ifThen c s, h, room + 1 => by
      rw [Stmt.WellFormed] at h
      rw [Stmt.exec]
      refine (c.stopsWithin_evalCondition h.1 limit room).bind
        (c.keepsShape_evalCondition _ _) fun b => ?_
      split
      · exact Stmt.stopsWithin_exec limit h.2 room
      · exact stopsWithin_pure _
  | .ifElse c s t, h, room + 1 => by
      rw [Stmt.WellFormed] at h
      rw [Stmt.exec]
      refine (c.stopsWithin_evalCondition h.1 limit room).bind
        (c.keepsShape_evalCondition _ _) fun b => ?_
      split
      · exact Stmt.stopsWithin_exec limit h.2.1 room
      · exact Stmt.stopsWithin_exec limit h.2.2 room
  | .block ds, h, room + 1 => by
      rw [Stmt.WellFormed] at h
      rw [Stmt.exec]
      exact (Decl.stopsWithin_execAll limit h room).inScope
        (Decl.keepsShape_execAll limit ds room)
  | .hole, h, room + 1 => by
      rw [Stmt.WellFormed] at h
      exact h.elim

/- A well-formed declaration only stops with errors. -/
theorem Decl.stopsWithin_exec
    (limit : Int) :
    ∀ {d : Decl}, d.WellFormed → ∀ room : Nat,
      StopsWithin Stop.IsError (d.exec limit room)
  | .declare name none, _, room => by
      rw [Decl.exec]
      exact stopsWithin_define name .nil
  | .declare name (some e), h, room => by
      rw [Decl.WellFormed] at h
      rw [Decl.exec]
      exact (e.stopsWithin_eval h limit room).bind
        (e.keepsShape_eval _ _) (stopsWithin_define name)
  | .statement s, h, room => by
      rw [Decl.WellFormed] at h
      rw [Decl.exec]
      exact Stmt.stopsWithin_exec limit h room
  | .hole, h, room => by
      rw [Decl.WellFormed] at h
      exact h.elim

/- Well-formed declarations only stop with errors. -/
theorem Decl.stopsWithin_execAll
    (limit : Int) :
    ∀ {ds : List Decl}, Decl.AllWellFormed ds →
      ∀ room : Nat,
        StopsWithin Stop.IsError (Decl.execAll limit ds room)
  | [], _, room => by
      rw [Decl.execAll]
      exact stopsWithin_pure _
  | d :: ds, h, room => by
      rw [Decl.AllWellFormed] at h
      rw [Decl.execAll]
      exact (Decl.stopsWithin_exec limit h.1 room).bind
        (d.keepsShape_exec _ _)
        fun _ => Decl.stopsWithin_execAll limit h.2 room

end

end Lox
