import Lox.Proofs.Reading.Rest

/-
  Every attempt makes progress.

  A declaration that is read consumes a token, and so does a
  failed attempt with the skipping after it.  Blocks and
  programs are therefore read step by step, without regard
  to the lengths of what is left.

  Key theorems include:
    * `Decl.length_lt_of_parse`
    * `Failure.length_boundary_lt`
    * `Decl.parseBlock_of_not_rightBrace`
    * `Decl.parseBlock_induction`
    * `Decl.parseAll_induction`
    * `Decl.parseAll_of_done`
    * `Decl.parseAll_of_failed`
    * `Decl.parseAll_eq_map_ok`
-/

namespace Lox

variable {set : Setting} {depth : Nat}
variable {t : Token} {ts rest : List Token}
variable {d : Decl} {ds : List Decl} {f : Failure}

------------------------------------------------------------
-- Declarations
------------------------------------------------------------

/- A declaration that is read consumes a token. -/
theorem Decl.length_lt_of_parse
    (h : Decl.parse set depth ts = .done d rest) :
    rest.length < ts.length := by
  rcases Decl.derives_of_parse h with ⟨us, rfl, hus⟩
  rcases hus.eq_cons with ⟨u, vs, rfl, -⟩
  simp only [List.length_append, List.length_cons]
  omega

------------------------------------------------------------
-- Boundaries
------------------------------------------------------------

/- Skipping consumes a token where it is stuck. -/
theorem length_resume_true_lt
    (opened : Nat)
    (t : Token)
    (ts : List Token) :
    (resume true opened (t :: ts)).length <
      (t :: ts).length := by
  have hSkip :
      ∀ opened,
        (resume false opened ts).length < (t :: ts).length :=
    fun opened =>
      Nat.lt_succ_of_le (resume_suffix _ _ ts).length_le
  have hStay : ts.length < (t :: ts).length :=
    Nat.lt_succ_self _
  rw [resume.eq_def]
  dsimp only
  split
  · rename_i h
    cases h
  · split
    · exact hSkip _
    · split
      · exact hSkip _
      · exact hStay
      · exact hSkip _
    · split
      · exact hStay
      · exact hSkip _
    · exact hSkip _

/- After a failed attempt, reading resumes further on. -/
theorem Failure.length_boundary_lt
    (h : Decl.parse set depth (t :: ts) = .failed f) :
    (f.boundary (t :: ts)).length < (t :: ts).length := by
  have hRest : f.rest <:+ t :: ts := by
    have := Decl.rest_parse_suffix set depth (t :: ts)
    rwa [h] at this
  unfold boundary
  by_cases hStuck : f.rest.length = (t :: ts).length
  · rw [hRest.eq_of_length hStuck, beq_self_eq_true]
    exact length_resume_true_lt f.opened t ts
  · have hLess : f.rest.length < (t :: ts).length :=
      Nat.lt_of_le_of_ne hRest.length_le hStuck
    exact Nat.lt_of_le_of_lt
      (resume_suffix _ _ f.rest).length_le hLess

------------------------------------------------------------
-- Blocks
------------------------------------------------------------

namespace Decl

/- A block that is not closed fails at the end. -/
theorem parseBlock_nil :
    parseBlock set depth [] =
      .fail set.endLine .endOfInput [] := by
  rw [parseBlock, parseBlockWith]

/- A block ends at its closing brace. -/
theorem parseBlock_of_rightBrace
    (h : t.kind = .rightBrace) :
    parseBlock set depth (t :: ts) = .done [] ts := by
  rw [parseBlock, parseBlockWith, if_pos h]

/- Until it ends, a block goes on with a declaration. -/
theorem parseBlock_of_not_rightBrace
    (h : ¬ t.kind = .rightBrace) :
    parseBlock set depth (t :: ts) =
      (Decl.parse set depth (t :: ts)).andThen
        fun d mid =>
      (parseBlock set depth mid).andThen
        fun ds rest => .done (d :: ds) rest := by
  rw [parseBlock, parseBlockWith, if_neg h]
  cases hd : Decl.parse set depth (t :: ts) with
  | failed f => rfl
  | done d mid =>
      simp only [Attempt.andThen_done]
      rw [dif_pos (length_lt_of_parse hd)]
      rfl

/-
  What holds at the end of a block, and in front of each
  declaration if it does after it.
-/
theorem parseBlock_induction
    (set : Setting)
    (depth : Nat)
    {motive : List Token → Prop}
    (nil : motive [])
    (closing :
      ∀ t ts, t.kind = .rightBrace → motive (t :: ts))
    (declaration :
      ∀ t ts, ¬ t.kind = .rightBrace →
        (∀ d mid,
          Decl.parse set depth (t :: ts) = .done d mid →
            motive mid) →
        motive (t :: ts))
    (ts : List Token) :
    motive ts := by
  induction ts using parseBlockWith_induction with
  | nil => exact nil
  | closing t ts hClosing => exact closing t ts hClosing
  | declaration t ts hClosing ih =>
      exact declaration t ts hClosing fun d mid hd =>
        ih mid (length_lt_of_parse hd)

------------------------------------------------------------
-- Programs
------------------------------------------------------------

/- After a declaration, the program is read on. -/
theorem parseAll_of_done
    (h :
      Decl.parse set set.limits.depthRoom ts =
        .done d rest) :
    parseAll set ts = .ok d :: parseAll set rest := by
  cases ts with
  | nil => cases length_lt_of_parse h
  | cons t ts =>
      rw [parseAll, h]
      dsimp only
      rw [dif_pos (length_lt_of_parse h)]

/- After a failure, the program is read on elsewhere. -/
theorem parseAll_of_failed
    (h :
      Decl.parse set set.limits.depthRoom (t :: ts) =
        .failed f) :
    parseAll set (t :: ts) =
      .error f.error ::
        parseAll set (f.boundary (t :: ts)) := by
  rw [parseAll, h]
  dsimp only
  rw [dif_pos (f.length_boundary_lt h)]

/- No tokens form an empty program. -/
theorem parseAll_nil :
    parseAll set [] = [] := by
  rw [parseAll]

/- What holds at the end of a program, and in front of it. -/
theorem parseAll_induction
    (set : Setting)
    {motive : List Token → Prop}
    (nil : motive [])
    (done :
      ∀ t ts d rest,
        Decl.parse set set.limits.depthRoom (t :: ts) =
            .done d rest →
          motive rest → motive (t :: ts))
    (failed :
      ∀ t ts f,
        Decl.parse set set.limits.depthRoom (t :: ts) =
            .failed f →
          motive (f.boundary (t :: ts)) → motive (t :: ts))
    (ts : List Token) :
    motive ts := by
  induction ts using parseAll.induct set with
  | case1 => exact nil
  | case2 t ts d rest hParse ih =>
      exact done t ts d rest hParse
        (ih (length_lt_of_parse hParse))
  | case3 t ts f hParse ih =>
      exact failed t ts f hParse
        (ih (f.length_boundary_lt hParse))

/- Declarations alone are all there is in a program. -/
theorem declarationsOf_map_ok
    (ds : List Decl) :
    declarationsOf (ds.map .ok) = ds := by
  induction ds with
  | nil => rfl
  | cons d ds ih =>
      rw [List.map_cons]
      exact congrArg (List.cons d) ih

/- Declarations alone have no errors among them. -/
theorem errorsOf_map_ok
    (ds : List Decl) :
    errorsOf (ds.map .ok) = [] := by
  induction ds with
  | nil => rfl
  | cons d ds ih =>
      rw [List.map_cons]
      exact ih

/- Without errors, there are declarations alone. -/
theorem errorsOf_eq_nil
    {items : List (Except ParseError Decl)} :
    errorsOf items = [] ↔
      ∃ ds : List Decl, items = ds.map .ok := by
  constructor
  · intro h
    induction items with
    | nil => exact ⟨[], rfl⟩
    | cons item items ih =>
        cases item with
        | error e => cases h
        | ok d =>
            rcases ih h with ⟨ds, rfl⟩
            exact ⟨d :: ds, rfl⟩
  · rintro ⟨ds, rfl⟩
    exact errorsOf_map_ok ds

/- A program without errors is read one by one. -/
theorem parseAll_eq_map_ok :
    parseAll set ts = ds.map .ok ↔
      ReadsAll set.limits.groupRoom set.limits.depthRoom ts
        none ds := by
  induction ds generalizing ts with
  | nil =>
      constructor
      · intro h
        cases ts with
        | nil => exact .nil
        | cons t ts =>
            cases hParse :
                parse set set.limits.depthRoom (t :: ts) with
            | done d rest =>
                rw [parseAll_of_done hParse] at h
                cases h
            | failed f =>
                rw [parseAll_of_failed hParse] at h
                cases h
      · intro h
        cases h
        exact parseAll_nil
  | cons d ds ih =>
      rw [List.map_cons]
      constructor
      · intro h
        cases ts with
        | nil =>
            rw [parseAll_nil] at h
            cases h
        | cons t ts =>
            cases hParse :
                parse set set.limits.depthRoom (t :: ts) with
            | done e rest =>
                rw [parseAll_of_done hParse,
                  List.cons.injEq] at h
                rcases h with ⟨hHead, hMore⟩
                cases hHead
                rcases reads_of_parse hParse with
                  ⟨us, hts, hus⟩
                rw [hts]
                exact .cons hus (ih.mp hMore)
            | failed f =>
                rw [parseAll_of_failed hParse] at h
                cases h
      · intro h
        cases h with
        | @cons _ us vs _ _ _ first more =>
            have hFirst := parse_append_eq_done.mpr first
            rcases first.derives.eq_cons with
              ⟨t, us, rfl, -⟩
            rw [List.cons_append] at hFirst ⊢
            rw [parseAll_of_done hFirst, ih.mpr more]

end Decl

end Lox
