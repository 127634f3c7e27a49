import TokenAudit.Proofs.Hierarchy.Continuation

/-! What linearization takes from the imports: which files are visible where several declarations
of other files have the name of a base. -/

namespace TokenAudit.Hierarchy

variable {h : Hierarchy} {imports : FileImports} {d : Nat} {base : String}

/-- The declarations of `h` with other imports. -/
def importing (h : Hierarchy) (imports : FileImports) : Hierarchy := { h with imports }

@[simp] theorem size_importing : (h.importing imports).size = h.size := rfl

@[simp] theorem fileOf_importing : (h.importing imports).fileOf = h.fileOf := rfl

@[simp] theorem candidates_importing : (h.importing imports).candidates = h.candidates := rfl

/-- Several declarations have the name of the base, none of them in the file of `d`. -/
structure Unclear (h : Hierarchy) (d : Nat) (base : String) : Prop where
  several : 2 ≤ (h.candidates d base).length
  outside : ∀ c ∈ h.candidates d base, h.fileOf c ≠ h.fileOf d

theorem resolve?_importing (hsame : h.Unclear d base → ∀ f,
    f ∈ imports.visible (h.fileOf d) ↔ f ∈ h.imports.visible (h.fileOf d)) :
    (h.importing imports).resolve? d base = h.resolve? d base := by
  unfold resolve?
  rw [candidates_importing, fileOf_importing]
  generalize hcs : h.candidates d base = cs
  match cs with
  | [] => rfl
  | [only] => rfl
  | c :: c' :: cs =>
    dsimp only
    cases hlocal : (c :: c' :: cs).find? fun e => h.fileOf e == h.fileOf d with
    | some found => rfl
    | none =>
      have hunclear : h.Unclear d base := by
        refine ⟨by simp [hcs], fun e he => ?_⟩
        rw [hcs] at he
        simpa using List.find?_eq_none.mp hlocal e he
      have hvisible : ∀ f, (imports.visible (h.fileOf d)).contains f =
          (h.imports.visible (h.fileOf d)).contains f := by
        intro f
        rw [Bool.eq_iff_iff, List.contains_iff_mem, List.contains_iff_mem]
        exact hsame hunclear f
      have himports : (h.importing imports).imports = imports := rfl
      simp only [himports, hvisible]

/-- If all bases that are written mean the same declarations, linearization does too. -/
theorem linearize_importing (hresolve : ∀ d, ∀ base ∈ h.basesOf d,
    (h.importing imports).resolve? d base = h.resolve? d base) :
    (h.importing imports).linearize = h.linearize := by
  have hh : h.Continues (h.importing imports) := ⟨Nat.le_refl _, fun _ _ => rfl, hresolve⟩
  have hlength : h.lineages.length = (h.importing imports).lineages.length := by
    rw [length_lineages, length_lineages, size_importing]
  rw [linearize, linearize, ← hh.prefix_lineages.eq_of_length hlength]
  rfl

end TokenAudit.Hierarchy
