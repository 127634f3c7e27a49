import Mathlib.Logic.Relation
import Mathlib.Tactic.ByContra
import TokenAudit.Hierarchy.Basic

/-! Which declaration a base name leads to, and which declarations stand above another. -/

namespace TokenAudit.Hierarchy

variable {h : Hierarchy} {d b : Nat} {base : String}

def nameOf (h : Hierarchy) (d : Nat) : String := (h.declarations[d]?.map (·.name)).getD ""

theorem nameOf_eq {decl : Declaration} (hd : h.declarations[d]? = some decl) :
    h.nameOf d = decl.name := by
  simp [nameOf, hd]

theorem mem_candidates_iff :
    b ∈ h.candidates d base ↔ b ≠ d ∧ ∃ decl, h.declarations[b]? = some decl ∧ decl.name = base := by
  simp only [candidates, size, List.mem_filter, List.mem_range, Bool.and_eq_true, bne_iff_ne,
    Option.any_eq_true, beq_iff_eq]
  constructor
  · rintro ⟨-, hd, hn⟩
    exact ⟨hd, hn⟩
  · rintro ⟨hd, decl, hb, hn⟩
    exact ⟨(List.getElem?_eq_some_iff.mp hb).1, hd, decl, hb, hn⟩

/-- The preferences one after another. Where one declaration alone has the name, each of them is
for it. -/
theorem resolve?_eq (h : Hierarchy) (d : Nat) (base : String) :
    h.resolve? d base =
      (((h.candidates d base).find? (h.fileOf · == h.fileOf d)).or
        ((h.candidates d base).find? ((h.imports.visible (h.fileOf d)).contains <| h.fileOf ·))).or
          (h.candidates d base).head? := by
  unfold resolve?
  generalize h.candidates d base = cs
  match cs with
  | [] => rfl
  | [only] =>
    simp only [List.find?_cons, List.find?_nil, List.head?_cons]
    cases h.fileOf only == h.fileOf d <;>
      cases (h.imports.visible (h.fileOf d)).contains (h.fileOf only) <;> rfl
  | c :: c' :: cs => simp

theorem mem_candidates_of_resolve? (hb : h.resolve? d base = some b) :
    b ∈ h.candidates d base := by
  simp only [resolve?_eq, Option.or_eq_some_iff, Option.or_eq_none_iff] at hb
  rcases hb with (hb | ⟨-, hb⟩) | ⟨-, hb⟩
  · exact List.mem_of_find?_eq_some hb
  · exact List.mem_of_find?_eq_some hb
  · exact List.mem_of_head? hb

theorem resolve?_eq_none_iff : h.resolve? d base = none ↔ h.candidates d base = [] := by
  rw [resolve?_eq]
  constructor
  · simp only [Option.or_eq_none_iff, List.head?_eq_none_iff]
    exact fun hr => hr.2
  · intro hc
    simp [hc]

theorem lt_size_of_resolve? (hb : h.resolve? d base = some b) : b < h.size := by
  obtain ⟨-, decl, hdecl, -⟩ := mem_candidates_iff.mp (mem_candidates_of_resolve? hb)
  exact (List.getElem?_eq_some_iff.mp hdecl).1

theorem nameOf_of_resolve? (hb : h.resolve? d base = some b) : h.nameOf b = base := by
  obtain ⟨-, decl, hdecl, hname⟩ := mem_candidates_iff.mp (mem_candidates_of_resolve? hb)
  rw [nameOf_eq hdecl, hname]

/-- Declaration `d` has a base that means declaration `b`. -/
def Extends (h : Hierarchy) (d b : Nat) : Prop := ∃ base ∈ h.basesOf d, h.resolve? d base = some b

/-- No declaration stands above itself. -/
def Acyclic (h : Hierarchy) : Prop := ∀ d, ¬ Relation.TransGen h.Extends d d

/-- Neither `d` nor any declaration above it stands above itself. -/
def AcyclicFrom (h : Hierarchy) (d : Nat) : Prop :=
  ∀ e, Relation.ReflTransGen h.Extends d e → ¬ Relation.TransGen h.Extends e e

theorem Acyclic.acyclicFrom (acyclic : h.Acyclic) (d : Nat) : h.AcyclicFrom d :=
  fun e _ => acyclic e

theorem AcyclicFrom.step (hd : h.AcyclicFrom d) (hx : h.Extends d b) : h.AcyclicFrom b :=
  fun e he => hd e (he.head hx)

theorem basesOf_eq_nil (hd : h.size ≤ d) : h.basesOf d = [] := by
  simp [basesOf, List.getElem?_eq_none (show h.declarations.length ≤ d from hd)]

theorem lt_size_of_mem_basesOf (hbase : base ∈ h.basesOf d) : d < h.size := by
  by_contra hd
  rw [basesOf_eq_nil (Nat.le_of_not_lt hd)] at hbase
  cases hbase

theorem Extends.nameOf_mem_basesOf (hx : h.Extends d b) : h.nameOf b ∈ h.basesOf d := by
  obtain ⟨base, hbase, hr⟩ := hx
  rwa [nameOf_of_resolve? hr]

theorem Extends.lt_size (hx : h.Extends d b) : d < h.size := by
  obtain ⟨base, hbase, -⟩ := hx
  exact lt_size_of_mem_basesOf hbase

theorem lt_size_of_transGen (hx : Relation.TransGen h.Extends d b) : d < h.size := by
  obtain ⟨c, hc, -⟩ := Relation.TransGen.head'_iff.mp hx
  exact hc.lt_size

/-- Bases that come before what they are bases of make no cycle. -/
theorem acyclic_of_lt
    (hlt : ∀ d < h.size, ∀ base ∈ h.basesOf d, (h.resolve? d base).all (· < d) = true) :
    h.Acyclic := by
  have hstep : ∀ d b, h.Extends d b → b < d := by
    intro d b hx
    obtain ⟨base, hbase, hr⟩ := id hx
    simpa [hr] using hlt d hx.lt_size base hbase
  have htrans : ∀ d b, Relation.TransGen h.Extends d b → b < d := by
    intro d b hx
    induction hx with
    | single hx => exact hstep _ _ hx
    | tail _ hx ih => exact Nat.lt_trans (hstep _ _ hx) ih
  exact fun d hx => Nat.lt_irrefl _ (htrans d d hx)

end TokenAudit.Hierarchy
