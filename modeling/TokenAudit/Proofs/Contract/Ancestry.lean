import TokenAudit.Proofs.Contract.CallGraph
import TokenAudit.Proofs.Hierarchy.Lineage

/-! Calls of inherited members: bases are resolved to declarations, but calls follow the names of
the bases, so a declaration of the same name can stand in for the one that is inherited from. -/

namespace TokenAudit.Hierarchy

open Relation CallGraph

variable {h : Hierarchy} {d e i : Nat} {m : String}

/-- In the names above `d`, that of `i` comes before that of `e`, or they have one name and `i` is
loaded first. -/
def Sooner (h : Hierarchy) (d i e : Nat) : Prop :=
  (h.inheritanceOf d).idxOf (h.nameOf i) < (h.inheritanceOf d).idxOf (h.nameOf e) ∨
    h.nameOf i = h.nameOf e ∧ i < e

/-- Declaration `i` does not stand above `d`, but has the name of one that does, and its member `m`
is met before all those that `d` inherits. -/
structure Captures (h : Hierarchy) (d : Nat) (m : String) (i : Nat) : Prop where
  outside : ¬ TransGen h.Extends d i
  declares : DeclaresAt h.linearize i m
  named : h.nameOf i ∈ h.inheritanceOf d
  sooner : ∀ e, TransGen h.Extends d e → DeclaresAt h.linearize e m → h.Sooner d i e

theorem namedAt_iff_of_declaresAt (acyclic : h.Acyclic) {a : String}
    (hi : DeclaresAt h.linearize i m) : NamedAt h.linearize i a ↔ h.nameOf i = a := by
  obtain ⟨c, hc, -⟩ := hi
  have hlt : i < h.size := by
    rw [← length_linearize acyclic]
    exact (List.getElem?_eq_some_iff.mp hc).1
  have hdecl : h.declarations[i]? = some h.declarations[i] := List.getElem?_eq_getElem hlt
  have hname : h.nameOf i = h.declarations[i].name := by simp [nameOf, hdecl]
  simp [NamedAt, linearize_getElem? acyclic hdecl, hname, Declaration.toContract]

theorem nameOf_mem_inheritanceOf (acyclic : h.Acyclic) (hx : TransGen h.Extends d e) :
    h.nameOf e ∈ h.inheritanceOf d := by
  rw [inheritanceOf_eq acyclic (lt_size_of_transGen hx), mem_lineage_iff acyclic]
  obtain ⟨c, hc, hce⟩ := TransGen.tail'_iff.mp hx
  exact ⟨c, hc, hce.nameOf_mem_basesOf⟩

/-- A call of an inherited member goes to one declaration, and no other of an inherited name is
met sooner. -/
theorem exists_targets_eq (acyclic : h.Acyclic) (hown : ¬ DeclaresAt h.linearize d m)
    (habove : ∃ e, TransGen h.Extends d e ∧ DeclaresAt h.linearize e m) :
    ∃ c, targets h.linearize d m = [⟨some c, m⟩] ∧ DeclaresAt h.linearize c m ∧
      h.nameOf c ∈ h.inheritanceOf d ∧
      ∀ i, DeclaresAt h.linearize i m → h.nameOf i ∈ h.inheritanceOf d → ¬ h.Sooner d i c := by
  obtain ⟨e, hx, he⟩ := habove
  generalize hts : targets h.linearize d m = ts
  cases bound_iff.mpr hts.symm with
  | own hown' => exact absurd hown' hown
  | @inherited before after a c _ hlineage hbefore hc hname hfirst =>
    change h.inheritanceOf d = before ++ a :: after at hlineage
    have hcname : h.nameOf c = a := (namedAt_iff_of_declaresAt acyclic hc).mp hname
    have hfresh : ∀ i, DeclaresAt h.linearize i m → h.nameOf i ∉ before := fun i hi hb =>
      hbefore _ hb i hi ((namedAt_iff_of_declaresAt acyclic hi).mpr rfl)
    refine ⟨c, rfl, hc, by simp [hlineage, hcname], ?_⟩
    rintro i hi - (hlt | ⟨hsame, hlt⟩)
    · rw [hlineage, List.idxOf_append, List.idxOf_append, if_neg (hfresh i hi),
        if_neg (hfresh c hc), hcname, List.idxOf_cons_self] at hlt
      omega
    · exact hfirst i hlt hi ((namedAt_iff_of_declaresAt acyclic hi).mpr (hsame.trans hcname))
  | everywhere _ hlineage =>
    exact absurd ((namedAt_iff_of_declaresAt acyclic he).mpr rfl)
      (hlineage _ (nameOf_mem_inheritanceOf acyclic hx) e he)
  | unresolved hnone => exact absurd he (hnone e)

theorem Sooner.of_not (hc : h.nameOf i ∈ h.inheritanceOf d) (hne : i ≠ e)
    (hns : ¬ h.Sooner d e i) : h.Sooner d i e := by
  simp only [Sooner, not_or, not_and, Nat.not_lt] at hns
  obtain ⟨hle, hload⟩ := hns
  rcases Nat.lt_or_eq_of_le hle with hlt | heq
  · exact Or.inl hlt
  · have hsame : h.nameOf i = h.nameOf e := (List.idxOf_inj hc).mp heq
    have hie : i ≤ e := hload hsame.symm
    exact Or.inr ⟨hsame, by omega⟩

/-- All edges for a member that is inherited lead to declarations above the caller, unless the
member is called and a declaration of an inherited name captures the calls. -/
theorem edges_lead_above_iff (acyclic : h.Acyclic) (hown : ¬ DeclaresAt h.linearize d m)
    (habove : ∃ e, TransGen h.Extends d e ∧ DeclaresAt h.linearize e m) :
    (∀ f t, (⟨some d, f⟩, t) ∈ (ofContracts h.linearize).edges → t.name = m →
      ∃ e, t.contract = some e ∧ TransGen h.Extends d e) ↔
    ((∃ f, m ∈ calleesAt h.linearize d f) → ¬ ∃ i, h.Captures d m i) := by
  obtain ⟨c, htargets, hdecl, hnamed, hleast⟩ := exists_targets_eq acyclic hown habove
  simp only [mem_edges_iff, callTargets, List.mem_flatMap]
  constructor
  · rintro hedges ⟨f, hf⟩ ⟨i, hi⟩
    obtain ⟨e, he, hx⟩ := hedges f ⟨some c, m⟩ ⟨m, hf, by simp [htargets]⟩ rfl
    obtain rfl : c = e := Option.some.inj he
    exact hleast i hi.declares hi.named (hi.sooner c hx hdecl)
  · rintro hfree f t ⟨callee, hf, ht⟩ rfl
    obtain rfl : t.name = callee := name_of_mem_targets ht
    rw [htargets, List.mem_singleton] at ht
    refine ⟨c, by rw [ht], ?_⟩
    by_contra hx
    refine hfree ⟨f, hf⟩ ⟨c, hx, hdecl, hnamed, fun e he hm => ?_⟩
    have hne : c ≠ e := by
      rintro rfl
      exact hx he
    exact Sooner.of_not hnamed hne (hleast e hm (nameOf_mem_inheritanceOf acyclic he))

/-- A mock has the name of the base that `Token` imports, and is loaded before it. -/
def mocked : Hierarchy where
  declarations :=
    [⟨"Base", .contract, "mocks/Base.sol", 1, [],
        [⟨"_check", .function, .internal, some [], none, some []⟩]⟩,
      ⟨"Base", .contract, "real/Base.sol", 1, [],
        [⟨"_check", .function, .internal, some [], none, some ["canTransfer"]⟩]⟩,
      ⟨"Token", .contract, "Token.sol", 1, ["Base"],
        [⟨"transfer", .function, .public, some [], none, some ["_check"]⟩]⟩]
  imports := [("Token.sol", ["real/Base.sol"])]

/-- What `transfer` of `Token` leads to does not include the call that the imported base makes. -/
example : closure? (ofContracts mocked.linearize) 2 "transfer" = some ["_check"] := by
  decide +kernel

theorem mocked_acyclic : mocked.Acyclic := acyclic_of_lt (by decide +kernel)

theorem mocked_extends (hx : mocked.Extends d e) : d = 2 ∧ e = 1 := by
  obtain ⟨base, hbase, hr⟩ := id hx
  have hd : d < 3 := hx.lt_size
  have hcases : d = 0 ∨ d = 1 ∨ d = 2 := by omega
  rcases hcases with rfl | rfl | rfl
  · simp [basesOf, mocked] at hbase
  · simp [basesOf, mocked] at hbase
  · obtain rfl : base = "Base" := by simpa [basesOf, mocked] using hbase
    have hone : mocked.resolve? 2 "Base" = some 1 := by decide +kernel
    exact ⟨rfl, (Option.some.inj (hr.symm.trans hone))⟩

theorem mocked_transGen_iff : TransGen mocked.Extends 2 e ↔ e = 1 := by
  constructor
  · intro hx
    obtain ⟨c, -, hce⟩ := TransGen.tail'_iff.mp hx
    exact (mocked_extends hce).2
  · rintro rfl
    exact .single ⟨"Base", by decide, by decide +kernel⟩

/-- The call in `Token` leads to the mock, which `Token` does not inherit from. -/
theorem mock_captures_call :
    mocked.Acyclic ∧ ¬ DeclaresAt mocked.linearize 2 "_check" ∧
      (TransGen mocked.Extends 2 1 ∧ DeclaresAt mocked.linearize 1 "_check") ∧
      ((⟨some 2, "transfer"⟩, ⟨some 0, "_check"⟩) ∈ (ofContracts mocked.linearize).edges) ∧
      ¬ TransGen mocked.Extends 2 0 := by
  refine ⟨mocked_acyclic, ?_, ⟨mocked_transGen_iff.mpr rfl, ?_⟩, ?_, ?_⟩
  · rw [← mem_declarers_iff]
    decide
  · rw [← mem_declarers_iff]
    decide
  · decide +kernel
  · rw [mocked_transGen_iff]
    decide

theorem edges_lead_above_iff_mocked :
    mocked.Captures 2 "_check" 0 ∧
      ¬ ∀ f t, (⟨some 2, f⟩, t) ∈ (ofContracts mocked.linearize).edges → t.name = "_check" →
        ∃ e, t.contract = some e ∧ TransGen mocked.Extends 2 e := by
  have hown : ¬ DeclaresAt mocked.linearize 2 "_check" := by
    rw [← mem_declarers_iff]
    decide
  have hreal : DeclaresAt mocked.linearize 1 "_check" := mem_declarers_iff.mp (by decide)
  have hmock : DeclaresAt mocked.linearize 0 "_check" := mem_declarers_iff.mp (by decide)
  have hcaptures : mocked.Captures 2 "_check" 0 := by
    refine ⟨by simp [mocked_transGen_iff], hmock, by decide +kernel, fun e hx _ => ?_⟩
    obtain rfl := mocked_transGen_iff.mp hx
    exact Or.inr (by decide)
  refine ⟨hcaptures, fun hedges => ?_⟩
  have habove := mocked_transGen_iff.mpr rfl
  exact (edges_lead_above_iff mocked_acyclic hown ⟨1, habove, hreal⟩).mp hedges
    ⟨"transfer", by decide⟩ ⟨0, hcaptures⟩

end TokenAudit.Hierarchy
