import Lox.Evaluation.Machine
import Lox.Evaluation.Operation
import Lox.Tree.Line

/-
  Evaluation: running trees.

  `room` counts the levels of nesting that are left; every
  expression and statement takes one for its parts, and
  stops the run if there is none.

  Key definitions include:
    * `Expr.eval`
    * `Stmt.exec`
    * `Decl.exec`
    * `Node.evaluate`
-/

namespace Lox

------------------------------------------------------------
-- Nesting
------------------------------------------------------------

/- How deep evaluation may be nested unless told otherwise. -/
def standardLimit : Int := 200

/-
  Why a run stops at a tree for which there is no room.  A
  tree that is on no line counts as on line 0.
-/
def Stop.tooDeep
    (limit : Int) : Except Fault (Option Int) → Stop
  | .ok line =>
      .error ⟨line.getD 0, .nestingTooDeep limit⟩
  | .error f => .fault f

------------------------------------------------------------
-- Expressions
------------------------------------------------------------

/- A value that has to be a truth value. -/
def Expr.truth
    (e : Expr)
    (line : Int) : Value → Except Stop Bool
  | .bool b => .ok b
  | v => e.blame line (.wrongType · .bool v.ty)

/- Evaluate an expression. -/
def Expr.eval
    (limit : Int) : Expr → (room : Nat) → Eval Value
  | e, 0 => throw (Stop.tooDeep limit (e.line.map some))
  | .literal t, _ + 1 =>
      Eval.ofExcept (t.literal.value.mapError .fault)
  | .identifier name, _ + 1 => Eval.lookup name
  | .grouping e, room + 1 => e.eval limit room
  | .assign target e, room + 1 => do
      let v ← e.eval limit room
      Eval.assign target v
  | .unary op e, room + 1 => do
      let v ← e.eval limit room
      Eval.ofExcept ((Expr.unary op e).applyUnary op v)
  | .binary left op right, room + 1 => do
      let x ← left.eval limit room
      let y ← right.eval limit room
      Eval.ofExcept
        ((Expr.binary left op right).applyBinary op x y)
  | .logical left op right, room + 1 => do
      let whole := Expr.logical left op right
      let x ← left.eval limit room
      let a ← Eval.ofExcept (whole.truth op.line x)
      if op.kind = .andWord ∧ a = false then
        return .bool false
      else if op.kind = .orWord ∧ a = true then
        return .bool true
      else
        let y ← right.eval limit room
        let b ← Eval.ofExcept (whole.truth op.line y)
        return .bool b
  | .hole, _ + 1 => throw (.fault .notExpression)

------------------------------------------------------------
-- Statements and Declarations
------------------------------------------------------------

/-
  Evaluate a condition.  A condition that is no truth value
  is reported on its own line.
-/
def Expr.evalCondition
    (limit : Int)
    (c : Expr)
    (room : Nat) : Eval Bool := do
  match ← c.eval limit room with
  | .bool b => return b
  | v =>
      match c.line with
      | .error f => throw (.fault f)
      | .ok line => Eval.ofExcept (c.truth line v)

mutual

/- Run a statement; only expressions have a value. -/
def Stmt.exec
    (limit : Int) : Stmt → (room : Nat) → Eval Value
  | s, 0 => throw (Stop.tooDeep limit s.line)
  | .expression e, room + 1 => e.eval limit room
  | .print e, room + 1 => do
      let v ← e.eval limit room
      Eval.print v
  | .ifThen c s, room + 1 => do
      if ← c.evalCondition limit room then
        s.exec limit room
      else return .nil
  | .ifElse c s t, room + 1 => do
      if ← c.evalCondition limit room then
        s.exec limit room
      else t.exec limit room
  | .block ds, room + 1 =>
      Eval.inScope (Decl.execAll limit ds room)
  | .hole, _ + 1 => throw (.fault .notStatement)

/-
  Run a declaration.  A variable without an initial value
  starts as nothing.
-/
def Decl.exec
    (limit : Int) : Decl → (room : Nat) → Eval Value
  | .declare name none, _ => Eval.define name .nil
  | .declare name (some e), room => do
      let v ← e.eval limit room
      Eval.define name v
  | .statement s, room => s.exec limit room
  | .hole, _ =>
      throw (.fault (.notDeclaration Hole.decl.name))

/- Run declarations in order, for no value. -/
def Decl.execAll
    (limit : Int) : List Decl → (room : Nat) → Eval Value
  | [], _ => return .nil
  | d :: ds, room => do
      let _ ← d.exec limit room
      Decl.execAll limit ds room

end

------------------------------------------------------------
-- Whole Trees
------------------------------------------------------------

/-
  Run a declaration, nested no deeper than a limit.  A
  limit below zero allows what zero does: nothing.
-/
def Decl.evaluate
    (limit : Int)
    (d : Decl) : Eval Value :=
  d.exec limit limit.toNat

/- Run a tree, which has to be a declaration. -/
def Node.evaluate
    (limit : Int) : Node → Eval Value
  | decl d => d.evaluate limit
  | n => throw (.fault (.notDeclaration n.form))

end Lox
