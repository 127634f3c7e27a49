import Mathlib.Order.Bounds.Basic
import TokenAudit.Proofs.Graph.Reachable
import TokenAudit.Proofs.Hierarchy.Resolution
import TokenAudit.Proofs.Lists

/-! What a base name means where several declarations have it. Each preference is for the first
declaration in load order that meets it, and visible is what a chain of imports leads to. -/

namespace TokenAudit

open Relation

namespace FileImports

open TokenAudit.Graph

variable {imports : FileImports} {f g : String}

/-- File `f` imports file `g`. -/
def Imports (imports : FileImports) (f g : String) : Prop :=
  ∃ targets, (f, targets) ∈ imports ∧ g ∈ targets

theorem edge_iff_imports : Edge imports.edges f g ↔ imports.Imports f g := by
  simp only [Edge, edges, Imports, List.mem_flatMap, List.mem_map, Prod.exists, Prod.mk.injEq]
  constructor
  · rintro ⟨f, targets, h, g, hg, rfl, rfl⟩
    exact ⟨targets, h, hg⟩
  · rintro ⟨targets, h, hg⟩
    exact ⟨f, targets, h, g, hg, rfl, rfl⟩

theorem mem_visible_iff : g ∈ imports.visible f ↔ TransGen imports.Imports f g := by
  have hedges : Edge imports.edges = imports.Imports :=
    funext₂ fun _ _ => propext edge_iff_imports
  rw [visible, mem_reachable_iff, hedges]

end FileImports

namespace Hierarchy

variable {h : Hierarchy} {d b c : Nat} {base : String}

/-- Declaration `c` is another than `d` and has the name `base`. -/
def Offers (h : Hierarchy) (d : Nat) (base : String) (c : Nat) : Prop :=
  c ≠ d ∧ ∃ decl, h.declarations[c]? = some decl ∧ decl.name = base

/-- The file of `d` leads to the file of declaration `c` by one or more imports. -/
def Sees (h : Hierarchy) (d c : Nat) : Prop :=
  TransGen h.imports.Imports (h.fileOf d) (h.fileOf c)

/-- What `base` means in declaration `d`: the first declaration of that name in the same file, else
the first one that `d` sees, else the first one. -/
inductive Means (h : Hierarchy) (d : Nat) (base : String) (b : Nat) : Prop
  | sameFile (hb : IsLeast {c | h.Offers d base c ∧ h.fileOf c = h.fileOf d} b)
  | imported (hfile : ∀ c, h.Offers d base c → h.fileOf c ≠ h.fileOf d)
      (hb : IsLeast {c | h.Offers d base c ∧ h.Sees d c} b)
  | loaded (hfile : ∀ c, h.Offers d base c → h.fileOf c ≠ h.fileOf d)
      (himports : ∀ c, h.Offers d base c → ¬ h.Sees d c)
      (hb : IsLeast {c | h.Offers d base c} b)

theorem mem_candidates_iff_offers : c ∈ h.candidates d base ↔ h.Offers d base c :=
  mem_candidates_iff

theorem pairwise_candidates (h : Hierarchy) (d : Nat) (base : String) :
    (h.candidates d base).Pairwise (· < ·) :=
  List.pairwise_lt_range.filter _

section Find

variable {p : Nat → Bool} {P : Nat → Prop} (hp : ∀ c, p c = true ↔ P c)

include hp

theorem find?_candidates_eq_some_iff :
    (h.candidates d base).find? p = some b ↔ IsLeast {c | h.Offers d base c ∧ P c} b := by
  rw [find?_eq_some_iff_of_pairwise (pairwise_candidates h d base)]
  simp only [mem_candidates_iff_offers, hp, ← Bool.not_eq_true]
  constructor
  · rintro ⟨hb, hPb, hfirst⟩
    refine ⟨⟨hb, hPb⟩, fun c hc => ?_⟩
    by_contra hlt
    exact hfirst c (Nat.lt_of_not_le hlt) hc.1 hc.2
  · rintro ⟨⟨hb, hPb⟩, hleast⟩
    exact ⟨hb, hPb, fun c hlt hc hPc => Nat.not_lt.mpr (hleast ⟨hc, hPc⟩) hlt⟩

theorem find?_candidates_eq_none_iff :
    (h.candidates d base).find? p = none ↔ ∀ c, h.Offers d base c → ¬ P c := by
  simp only [List.find?_eq_none, mem_candidates_iff_offers, hp]

end Find

theorem head?_candidates_eq_some_iff :
    (h.candidates d base).head? = some b ↔ IsLeast {c | h.Offers d base c} b := by
  have hhead : (h.candidates d base).head? = (h.candidates d base).find? fun _ => true := by
    cases h.candidates d base <;> rfl
  rw [hhead, find?_candidates_eq_some_iff (P := fun _ => True) (by simp)]
  simp only [and_true]

theorem contains_visible_iff :
    (h.imports.visible (h.fileOf d)).contains (h.fileOf c) = true ↔ h.Sees d c := by
  rw [List.contains_iff_mem, FileImports.mem_visible_iff, Sees]

/-- A base name means nothing if no other declaration has it, and else one declaration, whether or
not the imports make a cycle. -/
theorem resolve?_iff_means (h : Hierarchy) (d : Nat) (base : String) :
    (h.resolve? d base = none ↔ ∀ c, ¬ h.Offers d base c) ∧
      ∀ b, h.resolve? d base = some b ↔ h.Means d base b := by
  have hfile : ∀ c, (h.fileOf c == h.fileOf d) = true ↔ h.fileOf c = h.fileOf d :=
    fun c => beq_iff_eq
  have hsees : ∀ c, (h.imports.visible (h.fileOf d)).contains (h.fileOf c) = true ↔ h.Sees d c :=
    fun c => contains_visible_iff
  constructor
  · rw [resolve?_eq_none_iff, List.eq_nil_iff_forall_not_mem]
    simp only [mem_candidates_iff_offers]
  · intro b
    simp only [resolve?_eq, Option.or_eq_some_iff, Option.or_eq_none_iff,
      find?_candidates_eq_some_iff hfile, find?_candidates_eq_none_iff hfile,
      find?_candidates_eq_some_iff hsees, find?_candidates_eq_none_iff hsees,
      head?_candidates_eq_some_iff]
    constructor
    · rintro ((hb | ⟨hlocal, hb⟩) | ⟨⟨hlocal, hnone⟩, hb⟩)
      · exact .sameFile hb
      · exact .imported hlocal hb
      · exact .loaded hlocal hnone hb
    · rintro (hb | ⟨hlocal, hb⟩ | ⟨hlocal, hnone, hb⟩)
      · exact Or.inl (Or.inl hb)
      · exact Or.inl (Or.inr ⟨hlocal, hb⟩)
      · exact Or.inr ⟨⟨hlocal, hnone⟩, hb⟩

end Hierarchy

end TokenAudit
