import Lox.Proofs.Evaluation.Stops
import Lox.Proofs.Reading.Joining

/-
  What lines do to a run.

  Lines only come up in errors.  A tree that stands some
  lines further down therefore runs as it does where it is,
  and an error is reported as many lines further down.  A
  statement that is too deep may be on no line at all, so
  for statements this takes enough room.

  Key definitions include:
    * `RuntimeError.lower`
    * `Eval.lower`

  Key theorems include:
    * `Expr.eval_lower`
    * `Stmt.Derives.exec_lower`
    * `Decl.Derives.evaluate_lower`
-/

namespace Lox

variable {α β : Type}

------------------------------------------------------------
-- Errors Further Down
------------------------------------------------------------

/- A runtime error some lines further down. -/
def RuntimeError.lower
    (n : Int)
    (e : RuntimeError) : RuntimeError :=
  { e with line := e.line + n }

/- A stop some lines further down; faults have no line. -/
def Stop.lower
    (n : Int) : Stop → Stop
  | error e => error (e.lower n)
  | fault f => fault f

/- An outcome some lines further down. -/
def lowerStop
    (n : Int)
    (r : Except Stop α) : Except Stop α :=
  r.mapError (Stop.lower n)

/- The outcome of using a value further down. -/
theorem lowerStop_map
    (f : α → β)
    (n : Int)
    (r : Except Stop α) :
    lowerStop n (r.map f) = (lowerStop n r).map f := by
  cases r <;> rfl

------------------------------------------------------------
-- Steps Further Down
------------------------------------------------------------

namespace Eval

/- A step that stops some lines further down. -/
def lower
    (n : Int)
    (step : Eval α) : Eval α :=
  fun m =>
    match step m with
    | .ok x m => .ok x m
    | .error s m => .error (s.lower n) m

/- Steps stop further down one after the other. -/
theorem lower_bind
    (n : Int)
    (step : Eval α)
    (next : α → Eval β) :
    lower n (step >>= next) =
      lower n step >>= fun x => lower n (next x) := by
  funext m
  rw [bind_apply, lower, bind_apply, lower]
  cases step m <;> rfl

/- A result is no stop. -/
theorem lower_pure
    (n : Int)
    (x : α) :
    lower n (pure x) = pure x :=
  rfl

/- Stopping further down. -/
theorem lower_throw
    (n : Int)
    (s : Stop) :
    lower n (throw s : Eval α) = throw (s.lower n) :=
  rfl

/- Ending further down. -/
theorem lower_ofExcept
    (n : Int)
    (r : Except Stop α) :
    lower n (ofExcept r) = ofExcept (lowerStop n r) := by
  cases r <;> rfl

/- Looking a name up further down. -/
theorem lower_lookup
    (n : Int)
    (name : Token) :
    lower n (lookup name) = lookup (name.lower n) := by
  funext m
  unfold lower lookup
  dsimp only [Token.lexeme_lower]
  cases m.env.get? name.lexeme <;> rfl

/- Assigning further down. -/
theorem lower_assign
    (n : Int)
    (name : Token)
    (v : Value) :
    lower n (assign name v) = assign (name.lower n) v := by
  funext m
  unfold lower assign
  dsimp only [Token.lexeme_lower]
  cases m.env.assign? name.lexeme v <;> rfl

/- Declaring does not stop. -/
theorem lower_define
    (n : Int)
    (name : Token)
    (v : Value) :
    lower n (define name v) = define (name.lower n) v :=
  rfl

/- Printing does not stop. -/
theorem lower_print
    (n : Int)
    (v : Value) :
    lower n (print v) = print v :=
  rfl

/- Stopping further down in a scope of its own. -/
theorem lower_inScope
    (n : Int)
    (step : Eval α) :
    lower n (inScope step) = inScope (lower n step) := by
  funext m
  unfold lower inScope
  dsimp only
  cases step { m with env := m.env.push } with
  | ok x after =>
      dsimp only
      cases after.env.pop <;> rfl
  | error s after =>
      dsimp only
      cases after.env.pop <;> rfl

end Eval

------------------------------------------------------------
-- Operators
------------------------------------------------------------

namespace Expr

/- An expression some lines further down. -/
def lower
    (n : Int)
    (e : Expr) : Expr :=
  e.mapTokens (Token.lower n)

/- Further down, the same places are open. -/
theorem missing?_lower
    (n : Int)
    (e : Expr) :
    (e.lower n).missing? = e.missing? := by
  unfold lower
  induction e with
  | literal t => rfl
  | identifier t => rfl
  | grouping e ih => exact ih
  | unary op e ih => exact ih
  | binary left op right ihLeft ihRight =>
      rw [mapTokens, missing?, missing?, ihLeft, ihRight]
  | logical left op right ihLeft ihRight =>
      rw [mapTokens, missing?, missing?, ihLeft, ihRight]
  | assign target e ih => exact ih
  | hole => rfl

/- Further down, an expression has the same text. -/
theorem text_lower
    (n : Int)
    (e : Expr) :
    (e.lower n).text = e.text := by
  unfold text
  rw [missing?_lower, lower,
    chars_mapTokens (Token.lexeme_lower n)]

/- Further down, an expression is on a lower line. -/
theorem line_lower
    (n : Int)
    (e : Expr) :
    (e.lower n).line = e.line.map (· + n) := by
  unfold lower
  induction e with
  | literal t => rfl
  | identifier t => rfl
  | grouping e ih => exact ih
  | unary op e ih => rfl
  | binary left op right ihLeft ihRight => exact ihLeft
  | logical left op right ihLeft ihRight => exact ihLeft
  | assign target e ih => rfl
  | hole => rfl

/- Further down, an expression is blamed on its line. -/
theorem blame_lower
    (n : Int)
    (e : Expr)
    (line : Int)
    (cause : String → RuntimeError.Cause) :
    ((e.lower n).blame (line + n) cause : Except Stop α) =
      lowerStop n (e.blame line cause) := by
  unfold blame
  rw [text_lower]
  cases e.text <;> rfl

/- Further down, operands are blamed on their line. -/
theorem blameOperands_lower
    (n : Int)
    (e : Expr)
    (op : Token)
    (supported : List Ty)
    (left right : Ty) :
    ((e.lower n).blameOperands (op.lower n) supported
        left right : Except Stop α) =
      lowerStop n (e.blameOperands op supported left right) := by
  unfold blameOperands
  split
  · exact blame_lower n e op.line _
  · split
    · exact blame_lower n e op.line _
    · exact blame_lower n e op.line _

/- A truth value further down. -/
theorem truth_lower
    (n : Int)
    (e : Expr)
    (line : Int)
    (v : Value) :
    (e.lower n).truth (line + n) v =
      lowerStop n (e.truth line v) := by
  cases v with
  | bool b => rfl
  | nil => exact blame_lower n e line _
  | number x => exact blame_lower n e line _
  | text s => exact blame_lower n e line _

/- An operator with one operand further down. -/
theorem applyUnary_lower
    (n : Int)
    (e : Expr)
    (op : Token)
    (v : Value) :
    (e.lower n).applyUnary (op.lower n) v =
      lowerStop n (e.applyUnary op v) := by
  unfold applyUnary
  rw [Token.kind_lower, Token.lexeme_lower]
  split
  · split
    · rfl
    · exact blame_lower n e op.line _
  · split
    · rfl
    · exact blame_lower n e op.line _
  · rfl

/- Comparing two values further down. -/
theorem applyEquality_lower
    (n : Int)
    (e : Expr)
    (op : Token)
    (left right : Value) :
    (e.lower n).applyEquality (op.lower n) left right =
      lowerStop n (e.applyEquality op left right) := by
  unfold applyEquality
  split
  · exact blame_lower n e op.line _
  · rfl

/- Ordering two values further down. -/
theorem applyOrder_lower
    (n : Int)
    (e : Expr)
    (op : Token)
    (left right : Value) :
    (e.lower n).applyOrder (op.lower n) left right =
      lowerStop n (e.applyOrder op left right) := by
  unfold applyOrder
  split
  · rfl
  · rfl
  · split
    · exact blame_lower n e op.line _
    · exact blame_lower n e op.line _

/- An operator with two operands further down. -/
theorem applyBinary_lower
    (n : Int)
    (e : Expr)
    (op : Token)
    (left right : Value) :
    (e.lower n).applyBinary (op.lower n) left right =
      lowerStop n (e.applyBinary op left right) := by
  unfold applyBinary
  rw [Token.kind_lower, applyEquality_lower,
    applyOrder_lower]
  split
  · exact (lowerStop_map _ n _).symm
  · exact (lowerStop_map _ n _).symm
  · exact (lowerStop_map _ n _).symm
  · exact (lowerStop_map _ n _).symm
  · exact (lowerStop_map _ n _).symm
  · exact (lowerStop_map _ n _).symm
  · split
    · rfl
    · rfl
    · exact blameOperands_lower n e op _ _ _
  · split
    · rfl
    · exact blameOperands_lower n e op _ _ _
  · split
    · rfl
    · exact blameOperands_lower n e op _ _ _
  · split
    · split
      · exact blame_lower n e op.line _
      · rfl
    · exact blameOperands_lower n e op _ _ _
  · rfl

/- What follows a left operand further down. -/
theorem evalRight_lower
    (n : Int)
    (whole : Expr)
    (op : Token)
    (right : Eval Value)
    (x : Value) :
    (whole.lower n).evalRight (op.lower n)
        (right.lower n) x =
      (whole.evalRight op right x).lower n := by
  unfold evalRight
  rw [Eval.lower_bind, Eval.lower_ofExcept, ← truth_lower]
  refine congrArg _ (funext fun a => ?_)
  rw [Token.kind_lower]
  split
  · rfl
  · split
    · rfl
    · rw [Eval.lower_bind]
      refine congrArg _ (funext fun y => ?_)
      rw [Eval.lower_bind, Eval.lower_ofExcept,
        ← truth_lower]
      rfl

------------------------------------------------------------
-- Expressions
------------------------------------------------------------

/- Too deep an expression stops the run further down. -/
theorem tooDeep_lower
    (limit n : Int)
    (e : Expr) :
    Stop.tooDeep limit ((e.lower n).line.map some) =
      (Stop.tooDeep limit (e.line.map some)).lower n := by
  rw [line_lower]
  cases e.line <;> rfl

/- Without room, it does so at once. -/
theorem eval_lower_zero
    (limit n : Int)
    (e : Expr) :
    (e.lower n).eval limit 0 = (e.eval limit 0).lower n := by
  rw [eval, eval, tooDeep_lower, Eval.lower_throw]

/- Further down, an expression is evaluated the same. -/
theorem eval_lower
    (limit n : Int)
    (e : Expr)
    (room : Nat) :
    (e.lower n).eval limit room =
      (e.eval limit room).lower n := by
  induction e generalizing room with
  | literal t =>
      cases room with
      | zero => exact eval_lower_zero limit n _
      | succ room =>
          have hValue :
              t.literal.value.mapError Stop.fault =
                lowerStop n
                  (t.literal.value.mapError .fault) := by
            cases t.literal.value <;> rfl
          rw [lower, mapTokens, eval, eval,
            Eval.lower_ofExcept, ← hValue]
          rfl
  | identifier name =>
      cases room with
      | zero => exact eval_lower_zero limit n _
      | succ room =>
          rw [lower, mapTokens, eval, eval, Eval.lower_lookup]
  | grouping e ih =>
      cases room with
      | zero => exact eval_lower_zero limit n _
      | succ room => exact ih room
  | unary op e ih =>
      cases room with
      | zero => exact eval_lower_zero limit n _
      | succ room =>
          rw [lower, mapTokens, eval, eval, Eval.lower_bind,
            ← ih]
          refine congrArg _ (funext fun v => ?_)
          rw [Eval.lower_ofExcept, ← applyUnary_lower]
          rfl
  | binary left op right ihLeft ihRight =>
      cases room with
      | zero => exact eval_lower_zero limit n _
      | succ room =>
          rw [lower, mapTokens, eval, eval, Eval.lower_bind,
            ← ihLeft]
          refine congrArg _ (funext fun x => ?_)
          rw [Eval.lower_bind, ← ihRight]
          refine congrArg _ (funext fun y => ?_)
          rw [Eval.lower_ofExcept, ← applyBinary_lower]
          rfl
  | logical left op right ihLeft ihRight =>
      cases room with
      | zero => exact eval_lower_zero limit n _
      | succ room =>
          change (left.lower n).eval limit room >>=
              ((logical left op right).lower n).evalRight
                (op.lower n)
                ((right.lower n).eval limit room) =
            Eval.lower n (left.eval limit room >>=
              (logical left op right).evalRight op
                (right.eval limit room))
          rw [Eval.lower_bind, ← ihLeft, ihRight]
          refine congrArg _ (funext fun x => ?_)
          exact evalRight_lower n _ op _ x
  | assign target e ih =>
      cases room with
      | zero => exact eval_lower_zero limit n _
      | succ room =>
          rw [lower, mapTokens, eval, eval, Eval.lower_bind,
            ← ih]
          refine congrArg _ (funext fun v => ?_)
          rw [Eval.lower_assign]
  | hole =>
      cases room with
      | zero => exact eval_lower_zero limit n _
      | succ room => rfl

/- Further down, a condition decides the same. -/
theorem evalCondition_lower
    (limit n : Int)
    (c : Expr)
    (room : Nat) :
    (c.lower n).evalCondition limit room =
      (c.evalCondition limit room).lower n := by
  have hDecide : ∀ v,
      (c.lower n).decide v = (c.decide v).lower n := by
    intro v
    unfold decide
    split
    · rfl
    · rw [line_lower]
      cases c.line with
      | error f => rfl
      | ok line =>
          exact (congrArg Eval.ofExcept
            (truth_lower n c line v)).trans
              (Eval.lower_ofExcept n _).symm
  change (c.lower n).eval limit room >>=
      (c.lower n).decide =
    Eval.lower n (c.eval limit room >>= c.decide)
  rw [Eval.lower_bind, ← eval_lower]
  exact congrArg _ (funext hDecide)

end Expr

------------------------------------------------------------
-- Statements and Declarations
------------------------------------------------------------

variable {endings : Endings} {groups depth room : Nat}
variable {ts : List Token}
variable {s : Stmt} {d : Decl} {ds : List Decl}

/-
  Whether a statement runs the same further down, in any
  number of blocks.
-/
def Stmt.RunsLower
    (limit n : Int)
    (room : Nat)
    (s : Stmt) : Prop :=
  ∀ k,
    (s.mapTokens (fun _ => Token.lower n) k).exec limit
        room =
      (s.exec limit room).lower n

/- A declaration runs the same if statements do. -/
theorem Decl.Derives.exec_lower_of
    (limit n : Int)
    (hStatements :
      ∀ ts s, Stmt.Derives endings groups depth ts s →
        s.RunsLower limit n room)
    (h : Decl.Derives endings groups depth ts d)
    (k : Nat) :
    (d.mapTokens (fun _ => Token.lower n) k).exec limit
        room =
      (d.exec limit room).lower n := by
  cases h with
  | declare hWord hName hEnd =>
      rw [Decl.mapTokens, Decl.exec, Decl.exec,
        Eval.lower_define]
  | declareWith hWord hName hEquals inner hEnd =>
      rw [Decl.mapTokens, Decl.exec, Decl.exec,
        Eval.lower_bind, ← Expr.eval_lower]
      rfl
  | statement inner =>
      rw [Decl.mapTokens, Decl.exec, Decl.exec,
        hStatements _ _ inner k]

/- Declarations run the same if statements do. -/
theorem Decl.DerivesAll.execAll_lower_of
    (limit n : Int)
    (hStatements :
      ∀ ts s, Stmt.Derives endings groups depth ts s →
        s.RunsLower limit n room)
    (h : Decl.DerivesAll endings groups depth ts ds)
    (k : Nat) :
    Decl.execAll limit
        (Decl.mapAllTokens (fun _ => Token.lower n) k ds)
        room =
      (Decl.execAll limit ds room).lower n := by
  induction ds generalizing ts with
  | nil =>
      rw [Decl.mapAllTokens, Decl.execAll, Eval.lower_pure]
  | cons d ds ih =>
      cases h with
      | cons first more =>
          rw [Decl.mapAllTokens, Decl.execAll, Decl.execAll,
            Eval.lower_bind,
            first.exec_lower_of limit n hStatements k]
          exact congrArg _ (funext fun _ => ih more)

/-
  Further down, a statement runs the same if there is room
  for the statements in it.
-/
theorem Stmt.Derives.exec_lower
    (limit n : Int)
    (h : Stmt.Derives endings groups depth ts s)
    (hRoom : depth ≤ room) :
    s.RunsLower limit n room := by
  induction depth generalizing ts s room with
  | zero => cases h
  | succ depth ih =>
      intro k
      cases room with
      | zero => cases hRoom
      | succ room =>
          have hBelow := Nat.le_of_succ_le_succ hRoom
          cases h with
          | expression inner hEnd =>
              rw [Stmt.mapTokens, Stmt.exec, Stmt.exec]
              exact Expr.eval_lower limit n _ room
          | print hWord inner hEnd =>
              rw [Stmt.mapTokens, Stmt.exec, Stmt.exec,
                Eval.lower_bind, ← Expr.eval_lower]
              exact congrArg _ (funext fun v =>
                (Eval.lower_print n v).symm)
          | block hOpening body hClosing hEnd =>
              have hBody :=
                body.execAll_lower_of limit n
                  (fun _ _ hs => ih hs hBelow) (k + 1)
              rw [Stmt.mapTokens, Stmt.exec, Stmt.exec,
                Eval.lower_inScope, hBody]
          | ifThen hWord hOpening test hClosing first =>
              rw [Stmt.mapTokens, Stmt.exec, Stmt.exec,
                Eval.lower_bind, ← Expr.evalCondition_lower]
              refine congrArg _ (funext fun b => ?_)
              split
              · exact ih first hBelow k
              · rfl
          | ifElse hWord hOpening test hClosing first hBody
              hSeparator second =>
              rw [Stmt.mapTokens, Stmt.exec, Stmt.exec,
                Eval.lower_bind, ← Expr.evalCondition_lower]
              refine congrArg _ (funext fun b => ?_)
              split
              · exact ih first hBelow k
              · exact ih second hBelow k

/-
  Further down, a declaration is evaluated the same if the
  limit leaves room for the statements in it.
-/
theorem Decl.Derives.evaluate_lower
    {limit : Int}
    (h : Decl.Derives endings groups depth ts d)
    (hRoom : depth ≤ limit.toNat)
    (n : Int) :
    (d.lower n).evaluate limit =
      (d.evaluate limit).lower n :=
  h.exec_lower_of limit n
    (fun _ _ hs => hs.exec_lower limit n hRoom) 0

end Lox
