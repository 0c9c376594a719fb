import Lox.Proofs.Reading.Progress
import Lox.Tree.Source

/-
  Reading programs: what is read off the tokens of a program
  is derived from some of them, and the canonical tokens of
  declarations are read as these declarations.

  Key theorems include:
    * `Decl.derives_of_mem_parseAll`
    * `Decl.parseAll_of_derivesAll`
-/

namespace Lox

variable {set : Setting}
variable {ts : List Token}

namespace Decl

/-
  A declaration that is read off a program is derived from
  tokens that follow each other in the program.
-/
theorem derives_of_mem_parseAll
    {d : Decl}
    (h : .ok d ∈ parseAll set ts) :
    ∃ us, us <:+: ts ∧
      Derives .optional set.limits.groupRoom
        set.limits.depthRoom us d := by
  induction ts using parseAll_induction set with
  | nil =>
      rw [parseAll_nil] at h
      cases h
  | done t more c rest hParse ih =>
      rcases derives_of_parse hParse with ⟨us, hts, hus⟩
      rw [parseAll_of_done hParse] at h
      rcases List.mem_cons.mp h with hHead | hTail
      · cases hHead
        exact ⟨us, ⟨[], rest, hts.symm⟩, hus⟩
      · rcases ih hTail with ⟨vs, hvs, hd⟩
        refine ⟨vs, hvs.trans ?_, hd⟩
        exact List.IsSuffix.isInfix ⟨us, hts.symm⟩
  | failed t more f hParse ih =>
      have hRest : f.rest <:+ t :: more := by
        have := rest_parse_suffix set set.limits.depthRoom
          (t :: more)
        rwa [hParse] at this
      have hBoundary :
          f.boundary (t :: more) <:+ t :: more :=
        (resume_suffix _ _ f.rest).trans hRest
      rw [parseAll_of_failed hParse] at h
      rcases List.mem_cons.mp h with hHead | hTail
      · cases hHead
      · rcases ih hTail with ⟨vs, hvs, hd⟩
        exact ⟨vs, hvs.trans hBoundary.isInfix, hd⟩

/- Canonical tokens are read as their declarations. -/
theorem parseAll_of_derivesAll
    {ds : List Decl}
    (h :
      DerivesAll .canonical set.limits.groupRoom
        set.limits.depthRoom ts ds) :
    parseAll set ts = ds.map .ok := by
  have hStops : Stops [] := by
    rintro t ⟨⟩
  have hReads := h.reads_of
    (fun _ _ _ hd hStops => hd.reads_of
      (fun _ _ _ hs hStops => hs.reads hStops) hStops) hStops
  exact parseAll_eq_map_ok.mpr hReads

end Decl

end Lox
