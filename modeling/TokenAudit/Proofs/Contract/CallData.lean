import Mathlib.Data.List.Forall2
import TokenAudit.Proofs.Contract.CallGraph

/-! More call data for the same contracts. Names are bound as before, and what calls led to when
less was known they lead to still. -/

namespace TokenAudit

/-- What was known of a list of names is known still; of an unknown list anything may be known
afterwards. -/
def StillKnown (before after : Option (List String)) : Prop :=
  ∀ names, before = some names → ∃ names', after = some names' ∧ names ⊆ names'

/-- `m'` is the member `m` of which no fewer modifiers and calls are known. -/
structure Member.Informed (m m' : Member) : Prop where
  same : m' = { m with modifiers := m'.modifiers, calls := m'.calls }
  modifiers : StillKnown m.modifiers m'.modifiers
  calls : StillKnown m.calls m'.calls

/-- `c'` is the contract `c`, and no fewer modifiers and calls are known of each member. -/
structure Contract.Informed (c c' : Contract) : Prop where
  same : c' = { c with members := c'.members }
  members : List.Forall₂ Member.Informed c.members c'.members

theorem StillKnown.subset {before after : Option (List String)} (h : StillKnown before after) :
    before.getD [] ⊆ after.getD [] := by
  cases hb : before with
  | none => exact List.nil_subset _
  | some names =>
    obtain ⟨names', ha, hsubset⟩ := h names hb
    rw [ha]
    exact hsubset

namespace Member.Informed

variable {m m' : Member} (h : m.Informed m')

include h

theorem name_eq : m'.name = m.name := by rw [h.same]

theorem kind_eq : m'.kind = m.kind := by rw [h.same]

theorem text_eq : m'.text = m.text := by rw [h.same]; rfl

theorem calls_eq_none (hm : m'.calls = none) : m.calls = none := by
  cases hc : m.calls with
  | none => rfl
  | some calls =>
    obtain ⟨calls', hcalls, -⟩ := h.calls calls hc
    cases hm.symm.trans hcalls

theorem leadsTo {callee : String} (hl : CallGraph.LeadsTo m callee) :
    CallGraph.LeadsTo m' callee := by
  obtain ⟨calls, hc, hl⟩ := hl
  obtain ⟨calls', hc', hsubset⟩ := h.calls calls hc
  refine ⟨calls', hc', ?_⟩
  rcases hl with hl | hl
  · exact Or.inl (h.modifiers.subset hl)
  · exact Or.inr (hsubset hl)

end Member.Informed

namespace Contract.Informed

variable {c c' : Contract} {m m' : Member} {name : String} (h : c.Informed c')

include h

theorem name_eq : c'.name = c.name := by rw [h.same]

theorem inheritance_eq : c'.inheritance = c.inheritance := by rw [h.same]

theorem exists_after (hm : m ∈ c.members) : ∃ m' ∈ c'.members, m.Informed m' :=
  exists_of_forall₂ h.members hm

theorem exists_before (hm : m' ∈ c'.members) : ∃ m ∈ c.members, m.Informed m' :=
  exists_of_forall₂ (List.Forall₂.flip (R := flip Member.Informed) h.members) hm

theorem declares_iff : c'.Declares name ↔ c.Declares name := by
  constructor
  · intro hd
    obtain ⟨m', hm', hname⟩ := hd
    obtain ⟨m, hm, hi⟩ := h.exists_before hm'
    exact ⟨m, hm, hi.name_eq.symm.trans hname⟩
  · intro hd
    obtain ⟨m, hm, hname⟩ := hd
    obtain ⟨m', hm', hi⟩ := h.exists_after hm
    exact ⟨m', hm', hi.name_eq.trans hname⟩

end Contract.Informed

namespace CallGraph

open TokenAudit.Graph Relation

variable {contracts contracts' : List Contract} {i caller : Nat} {name callee f : String}
variable {a b : CallNode} (h : List.Forall₂ Contract.Informed contracts contracts')

include h

theorem declaresAt_iff_of_informed :
    DeclaresAt contracts' i name ↔ DeclaresAt contracts i name := by
  unfold DeclaresAt
  rcases getElem?_of_forall₂ h i with ⟨hc, hc'⟩ | ⟨c, c', hc, hc', hi⟩
  · simp [hc, hc']
  · simp [hc, hc', hi.declares_iff]

theorem namedAt_iff_of_informed : NamedAt contracts' i name ↔ NamedAt contracts i name := by
  unfold NamedAt
  rcases getElem?_of_forall₂ h i with ⟨hc, hc'⟩ | ⟨c, c', hc, hc', hi⟩
  · simp [hc, hc']
  · simp [hc, hc', hi.name_eq]

theorem inheritanceAt_eq_of_informed : inheritanceAt contracts' i = inheritanceAt contracts i := by
  unfold inheritanceAt
  rcases getElem?_of_forall₂ h i with ⟨hc, hc'⟩ | ⟨c, c', hc, hc', hi⟩
  · simp [hc, hc']
  · simp [hc, hc', hi.inheritance_eq]

theorem bound_of_informed {ts : List CallNode} (hb : Bound contracts caller callee ts) :
    Bound contracts' caller callee ts := by
  have hdeclares : ∀ j name, DeclaresAt contracts j name ↔ DeclaresAt contracts' j name :=
    fun _ _ => (declaresAt_iff_of_informed h).symm
  have hnamed : ∀ j name, NamedAt contracts j name ↔ NamedAt contracts' j name :=
    fun _ _ => (namedAt_iff_of_informed h).symm
  cases hb with
  | own hown => exact .own ((hdeclares _ _).mp hown)
  | inherited hown hlineage hbefore hi hname hfirst =>
    rw [← inheritanceAt_eq_of_informed h] at hlineage
    simp only [hdeclares, hnamed] at hown hbefore hi hname hfirst
    exact .inherited hown hlineage hbefore hi hname hfirst
  | everywhere hown hlineage hsorted hmem hne =>
    rw [← inheritanceAt_eq_of_informed h] at hlineage
    simp only [hdeclares, hnamed] at hown hlineage hmem
    exact .everywhere hown hlineage hsorted hmem hne
  | unresolved hnone =>
    simp only [hdeclares] at hnone
    exact .unresolved hnone

/-- Call data has no part in what a name is bound to. -/
theorem targets_eq_of_informed :
    targets contracts' caller callee = targets contracts caller callee :=
  (bound_of_informed h (bound_targets contracts caller callee)).eq_targets.symm

theorem callsUnknown_of_informed (hu : CallsUnknown contracts' i f) :
    CallsUnknown contracts i f := by
  obtain ⟨c', m', hc', hm', hname, hcalls⟩ := hu
  rcases getElem?_of_forall₂ h i with ⟨-, hnone⟩ | ⟨c, c'', hc, hc'', hi⟩
  · cases hc'.symm.trans hnone
  · obtain rfl : c' = c'' := Option.some.inj (hc'.symm.trans hc'')
    obtain ⟨m, hm, hmi⟩ := hi.exists_before hm'
    exact ⟨c, m, hc, hm, hmi.name_eq.symm.trans hname, hmi.calls_eq_none hcalls⟩

theorem mem_calleesAt_of_informed (hcallee : callee ∈ calleesAt contracts i f) :
    callee ∈ calleesAt contracts' i f := by
  obtain ⟨c, m, hc, hm, hname, hl⟩ := mem_calleesAt_iff.mp hcallee
  rcases getElem?_of_forall₂ h i with ⟨hnone, -⟩ | ⟨c'', c', hc'', hc', hi⟩
  · cases hc.symm.trans hnone
  · obtain rfl : c = c'' := Option.some.inj (hc.symm.trans hc'')
    obtain ⟨m', hm', hmi⟩ := hi.exists_after hm
    exact mem_calleesAt_iff.mpr ⟨c', m', hc', hm', hmi.name_eq.trans hname, hmi.leadsTo hl⟩

/-- No edge goes away. -/
theorem edge_of_informed (he : Edge (ofContracts contracts).edges a b) :
    Edge (ofContracts contracts').edges a b := by
  unfold Edge at he ⊢
  rw [mem_edges_iff] at he ⊢
  obtain ⟨_ | j, name⟩ := a
  · cases he
  · obtain ⟨callee, hcallee, ht⟩ := List.mem_flatMap.mp he
    rw [← targets_eq_of_informed h] at ht
    exact List.mem_flatMap.mpr ⟨callee, mem_calleesAt_of_informed h hcallee, ht⟩

/-- No name goes out of a closure. -/
theorem mem_closure?_of_informed (hname : name ∈ (closure? (ofContracts contracts) i f).getD []) :
    name ∈ (closure? (ofContracts contracts') i f).getD [] := by
  obtain ⟨hdecl, hknown, b, hpath, hne, hb⟩ := mem_getD_closure?_iff.mp hname
  have hpath' : ReflTransGen (Edge (ofContracts contracts').edges) ⟨some i, f⟩ b :=
    ReflTransGen.mono (fun _ _ => edge_of_informed h) _ _ hpath
  exact mem_getD_closure?_iff.mpr ⟨(declaresAt_iff_of_informed h).mpr hdecl,
    mt (callsUnknown_of_informed h) hknown, b, hpath', hne, hb⟩

end CallGraph

end TokenAudit
