import Lox.Proofs.Reading.Recovery
import Lox.Proofs.Reading.Alike

/-
  Programs are read by the kinds of their tokens alone.

  Take two token sequences whose kinds agree place by place.
  However different their lexemes, literals and lines are,
  and whether or not they have an end or trivia among them,
  both are read as equally many items.  An item of the one
  and that of the other are trees of one shape, with tokens
  from the same places, or errors of one sort that show
  tokens from the same places.

  Key definitions include:
    * `Token.SamePlace`

  Key theorems include:
    * `Decl.alike_programWithin`
    * `Decl.programWithin_of_kinds_eq`
-/

namespace Lox

variable {R : Token → Token → Prop}
variable {t t' : Token} {ts ts' : List Token}

------------------------------------------------------------
-- Programs
------------------------------------------------------------

namespace Decl

/- Related tokens end where a program ends. -/
theorem forall₂_body
    (hKinds : ∀ t t', R t t' → t'.kind = t.kind)
    (hTokens : List.Forall₂ R ts ts') :
    List.Forall₂ R (body ts) (body ts') := by
  unfold body
  induction hTokens with
  | nil => exact .nil
  | cons hToken hMore ih =>
      rw [List.takeWhile_cons, List.takeWhile_cons,
        hKinds _ _ hToken]
      split
      · exact .cons hToken ih
      · exact .nil

/-
  Tokens of the same kinds are read alike, within any
  limits.
-/
theorem alike_programWithin
    (limits : Limits)
    (hKinds : ∀ t t', R t t' → t'.kind = t.kind)
    (hTokens : List.Forall₂ R ts ts') :
    List.Forall₂
      (ItemAlike R ⟨limits, endLine ts⟩
        ⟨limits, endLine ts'⟩)
      (programWithin limits ts) (programWithin limits ts') := by
  have hSettings :
      Setting.Alike R ⟨limits, endLine ts⟩
        ⟨limits, endLine ts'⟩ :=
    ⟨rfl, fun {t t'} hToken => hKinds t t' hToken⟩
  exact alike_parseAll hSettings
    (forall₂_body hKinds hTokens)

end Decl

------------------------------------------------------------
-- Places
------------------------------------------------------------

namespace Token

/- Tokens that stand at the same place of two sequences. -/
def SamePlace
    (ts ts' : List Token)
    (t t' : Token) : Prop :=
  ∃ i : Nat, ts[i]? = some t ∧ ts'[i]? = some t'

/- Where kinds agree, tokens at a place are of one kind. -/
theorem SamePlace.kind_eq
    (hKinds : ts'.map kind = ts.map kind)
    (h : SamePlace ts ts' t t') :
    t'.kind = t.kind := by
  rcases h with ⟨i, ht, ht'⟩
  have hPlace :
      (ts'.map kind)[i]? = (ts.map kind)[i]? :=
    congrArg (·[i]?) hKinds
  rw [List.getElem?_map, List.getElem?_map, ht, ht'] at hPlace
  exact Option.some.inj hPlace

/- Sequences of one length stand at the same places. -/
theorem forall₂_samePlace
    (hLength : ts.length = ts'.length) :
    List.Forall₂ (SamePlace ts ts') ts ts' := by
  rw [List.forall₂_iff_get]
  refine ⟨hLength, fun i hi hi' => ⟨i, ?_, ?_⟩⟩
  · exact List.getElem?_eq_getElem hi
  · exact List.getElem?_eq_getElem hi'

end Token

/-
  Within any limits, token sequences with the same kinds are
  read as equally many items.  One by one these are trees of
  one shape, with tokens from the same places, or errors of
  one sort that show tokens from the same places.
-/
theorem Decl.programWithin_of_kinds_eq
    (limits : Limits)
    (hKinds : ts'.map Token.kind = ts.map Token.kind) :
    List.Forall₂
      (ItemAlike (Token.SamePlace ts ts')
        ⟨limits, endLine ts⟩ ⟨limits, endLine ts'⟩)
      (programWithin limits ts) (programWithin limits ts') := by
  have hLength : ts.length = ts'.length := by
    simpa using (congrArg List.length hKinds).symm
  exact alike_programWithin limits
    (fun _ _ => Token.SamePlace.kind_eq hKinds)
    (Token.forall₂_samePlace hLength)

/- A variable, and an assignment to what is no name. -/
def wrongTarget : List Token :=
  [.plain .varWord "var", .plain .identifier "a",
    .plain .semicolon ";", .plain .nilWord "nil",
    .plain .equal "=", .plain .identifier "b"]

/- The same kinds, written with other names and on a line. -/
def otherTarget : List Token :=
  wrongTarget.map fun t =>
    { t with lexeme := t.lexeme ++ "_", line := 7 }

/- Both are read as a declaration and an error. -/
theorem Decl.programWithin_of_kinds_eq_wrongTarget :
    otherTarget.map Token.kind = wrongTarget.map Token.kind ∧
      List.Forall₂
        (ItemAlike (Token.SamePlace wrongTarget otherTarget)
          ⟨.standard, endLine wrongTarget⟩
          ⟨.standard, endLine otherTarget⟩)
        (programWithin .standard wrongTarget)
        (programWithin .standard otherTarget) :=
  ⟨by decide, programWithin_of_kinds_eq .standard (by decide)⟩

end Lox
