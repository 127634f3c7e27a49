import Mathlib.Data.List.Find
import TokenAudit.Proofs.Hierarchy.Continuation
import TokenAudit.Proofs.Hierarchy.Preference

/-! A declaration that is loaded after all others. Though it may have the name of a base that others
write, they keep their bases: it comes last where no preference is for it. -/

namespace TokenAudit.Hierarchy

open Relation

variable {h : Hierarchy} {n : Declaration} {c d : Nat} {base : String}

/-- The declarations of `h` with one more behind them. -/
def adding (h : Hierarchy) (n : Declaration) : Hierarchy :=
  { h with declarations := h.declarations ++ [n] }

/-- Wherever the name of `n` is written as a base it means something without `n`, and `n` is neither
in that file nor in one that its imports lead to. -/
def Unrelated (h : Hierarchy) (n : Declaration) : Prop :=
  ∀ d, n.name ∈ h.basesOf d →
    h.resolve? d n.name ≠ none ∧ h.fileOf d ≠ n.file ∧
      ¬ TransGen h.imports.Imports (h.fileOf d) n.file

@[simp] theorem size_adding : (h.adding n).size = h.size + 1 := by
  simp [adding, size]

theorem getElem?_adding (hc : c < h.size) :
    (h.adding n).declarations[c]? = h.declarations[c]? :=
  List.getElem?_append_left hc

theorem getElem?_adding_size : (h.adding n).declarations[h.size]? = some n := by
  simp [adding, size]

theorem basesOf_adding (hd : d < h.size) : (h.adding n).basesOf d = h.basesOf d := by
  rw [basesOf, basesOf, getElem?_adding hd]

theorem fileOf_adding (hd : d < h.size) : (h.adding n).fileOf d = h.fileOf d := by
  rw [fileOf, fileOf, getElem?_adding hd]

theorem fileOf_adding_size : (h.adding n).fileOf h.size = n.file := by
  simp [fileOf, getElem?_adding_size]

/-- Of the declarations with a name the new one is the last. -/
theorem candidates_adding (hd : d < h.size) :
    (h.adding n).candidates d base =
      h.candidates d base ++ if n.name = base then [h.size] else [] := by
  have hnew : [h.size].filter (fun c => c != d &&
      ((h.adding n).declarations[c]?.any (·.name == base))) =
        if n.name = base then [h.size] else [] := by
    have hne : h.size ≠ d := Nat.ne_of_gt hd
    by_cases hname : n.name = base <;> simp [getElem?_adding_size, hne, hname]
  rw [candidates, size_adding, List.range_succ, List.filter_append, hnew, candidates]
  congr 1
  refine List.filter_congr fun c hc => ?_
  rw [getElem?_adding (List.mem_range.mp hc)]

theorem lt_size_of_mem_candidates (hc : c ∈ h.candidates d base) : c < h.size :=
  List.mem_range.mp (List.mem_filter.mp hc).1

/-- Where the name of `n` is written no preference is for `n`. -/
theorem resolve?_adding (hn : h.Unrelated n) (hbase : base ∈ h.basesOf d) :
    (h.adding n).resolve? d base = h.resolve? d base := by
  have hd : d < h.size := lt_size_of_mem_basesOf hbase
  have hfiles : ∀ p : String → Bool,
      (h.candidates d base).find? (p <| (h.adding n).fileOf ·) =
        (h.candidates d base).find? (p <| h.fileOf ·) := by
    refine fun p => List.find?_congr fun c hc => ?_
    rw [fileOf_adding (lt_size_of_mem_candidates hc)]
  have himports : (h.adding n).imports = h.imports := rfl
  rw [resolve?_eq, resolve?_eq, candidates_adding hd, fileOf_adding hd, himports]
  by_cases hname : n.name = base
  · obtain ⟨hknown, hfile, hsees⟩ := hn d (hname ▸ hbase)
    rw [hname, ne_eq, resolve?_eq_none_iff] at hknown
    have hlocal : (n.file == h.fileOf d) = false := by simpa using hfile.symm
    have hvisible : (h.imports.visible (h.fileOf d)).contains n.file = false := by
      rw [← Bool.not_eq_true, List.contains_iff_mem, FileImports.mem_visible_iff]
      exact hsees
    simp only [if_pos hname, List.find?_append, List.find?_singleton, fileOf_adding_size, hlocal,
      hvisible, List.head?_append_of_ne_nil _ hknown, Bool.false_eq_true, if_false, Option.or_none]
    rw [hfiles (· == h.fileOf d), hfiles (h.imports.visible (h.fileOf d)).contains]
  · rw [if_neg hname, List.append_nil, hfiles (· == h.fileOf d),
      hfiles (h.imports.visible (h.fileOf d)).contains]

theorem continues_adding (hn : h.Unrelated n) : h.Continues (h.adding n) where
  size_le := by simp
  basesOf_eq := fun _ hd => basesOf_adding hd
  resolve?_eq := fun _ _ hbase => resolve?_adding hn hbase

/-- An unrelated declaration that is loaded last gives one contract more and leaves all others as
they are, whatever name it has and whether or not there are cycles. -/
theorem linearize_adding (hn : h.Unrelated n) :
    ∃ names, (h.adding n).linearize = h.linearize ++ [n.toContract names] := by
  obtain ⟨more, hmore⟩ := (continues_adding hn).prefix_lineages
  have hlength : more.length = 1 := by
    have hsum := congrArg List.length hmore
    rw [List.length_append, length_lineages, length_lineages, size_adding] at hsum
    omega
  obtain ⟨names, rfl⟩ := List.length_eq_one_iff.mp hlength
  refine ⟨names, ?_⟩
  have hsize : h.declarations.length = h.lineages.length := (length_lineages h).symm
  rw [linearize, linearize, ← hmore, adding, List.zipWith_append hsize]
  rfl

/-- Two contracts in files that import each other, and each the base of the other. -/
def paired : Hierarchy where
  declarations :=
    [⟨"Base", .contract, "real/Base.sol", 1, ["Token"], []⟩,
      ⟨"Token", .contract, "Token.sol", 1, ["Base"], []⟩]
  imports := [("Token.sol", ["real/Base.sol"]), ("real/Base.sol", ["Token.sol"])]

/-- Another base of the same name, in a file that neither of them imports. -/
def mockBase : Declaration := ⟨"Base", .contract, "mocks/Base.sol", 1, ["Mocked"], []⟩

theorem linearize_adding_paired :
    paired.Unrelated mockBase ∧
      (∃ names, (paired.adding mockBase).linearize =
        paired.linearize ++ [mockBase.toContract names]) ∧
      paired.linearize.map (·.inheritance) = [["Token", "Base"], ["Base"]] := by
  have hunrelated : paired.Unrelated mockBase := by
    intro d hbase
    have hd : d < 2 := lt_size_of_mem_basesOf hbase
    have hcases : d = 0 ∨ d = 1 := by omega
    rcases hcases with rfl | rfl
    · exact absurd hbase (by decide)
    · refine ⟨by decide +kernel, by decide, ?_⟩
      rw [← FileImports.mem_visible_iff]
      decide +kernel
  exact ⟨hunrelated, linearize_adding hunrelated, by decide +kernel⟩

end TokenAudit.Hierarchy
