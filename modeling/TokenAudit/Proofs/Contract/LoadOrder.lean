import TokenAudit.Proofs.Contract.CallGraph
import TokenAudit.Proofs.Positions

/-! The call graph of contracts in another order. Where no two contracts have one name, calls lead
to the same members of the same contracts, though to other positions. -/

namespace TokenAudit

/-- The same contracts in another order, no two of one name. -/
structure Reordered (contracts contracts' : List Contract) : Prop where
  perm : contracts'.Perm contracts
  distinct : (contracts.map (·.name)).Nodup

namespace CallGraph

open TokenAudit.Graph Relation

variable {contracts contracts' : List Contract} {i j k : Nat} {name callee a : String}

section SameAt

variable (h : SameAt contracts contracts' i j)

include h

theorem declaresAt_iff_of_sameAt : DeclaresAt contracts i name ↔ DeclaresAt contracts' j name := by
  rw [DeclaresAt, DeclaresAt, h.getElem?_eq]

theorem namedAt_iff_of_sameAt : NamedAt contracts i name ↔ NamedAt contracts' j name := by
  rw [NamedAt, NamedAt, h.getElem?_eq]

theorem callsUnknown_iff_of_sameAt :
    CallsUnknown contracts i name ↔ CallsUnknown contracts' j name := by
  rw [CallsUnknown, CallsUnknown, h.getElem?_eq]

theorem inheritanceAt_eq_of_sameAt : inheritanceAt contracts i = inheritanceAt contracts' j := by
  rw [inheritanceAt, inheritanceAt, h.getElem?_eq]

theorem calleesAt_eq_of_sameAt : calleesAt contracts i name = calleesAt contracts' j name := by
  rw [calleesAt, calleesAt, h.getElem?_eq]

end SameAt

theorem DeclaresAt.lt_length (h : DeclaresAt contracts i name) : i < contracts.length := by
  obtain ⟨c, hc, -⟩ := h
  exact (List.getElem?_eq_some_iff.mp hc).1

/-- Where no two contracts have one name, a name stands at one position only. -/
theorem NamedAt.inj (hd : (contracts.map (·.name)).Nodup) (hi : NamedAt contracts i name)
    (hj : NamedAt contracts j name) : i = j := by
  obtain ⟨c, hc, rfl⟩ := hi
  obtain ⟨c', hc', hname⟩ := hj
  have hlt : i < (contracts.map (·.name)).length := by
    rw [List.length_map]
    exact (List.getElem?_eq_some_iff.mp hc).1
  refine (List.getElem?_inj hlt hd).mp ?_
  rw [List.getElem?_map, List.getElem?_map, hc, hc', Option.map_some, Option.map_some, hname]

/-- Nodes of the graphs for two orders that stand for one member, or for one unknown name. -/
inductive Corresponds (contracts contracts' : List Contract) : CallNode → CallNode → Prop
  | declared {i j : Nat} {name : String} (h : SameAt contracts contracts' i j) :
      Corresponds contracts contracts' ⟨some i, name⟩ ⟨some j, name⟩
  | unresolved {name : String} : Corresponds contracts contracts' ⟨none, name⟩ ⟨none, name⟩

theorem Corresponds.name_eq {b b' : CallNode} (h : Corresponds contracts contracts' b b') :
    b.name = b'.name := by
  cases h <;> rfl

end CallGraph

namespace Reordered

open CallGraph TokenAudit.Graph Relation

variable {contracts contracts' : List Contract} {i j k : Nat} {name callee a : String}
variable {b b' c : CallNode} (hr : Reordered contracts contracts')

include hr

theorem symm : Reordered contracts' contracts :=
  ⟨hr.perm.symm, ((hr.perm.map _).nodup_iff).mpr hr.distinct⟩

theorem nodup : contracts.Nodup := hr.distinct.of_map _

theorem exists_sameAt_of_declaresAt (h : DeclaresAt contracts i name) :
    ∃ j, SameAt contracts contracts' i j ∧ DeclaresAt contracts' j name := by
  obtain ⟨j, hj⟩ := exists_sameAt hr.perm h.lt_length
  exact ⟨j, hj, (declaresAt_iff_of_sameAt hj).mp h⟩

theorem not_namedAt (hnone : ∀ j, DeclaresAt contracts j callee → ¬ NamedAt contracts j a) :
    ∀ j, DeclaresAt contracts' j callee → ¬ NamedAt contracts' j a := by
  intro j hj hname
  obtain ⟨i, hi, hdecl⟩ := hr.symm.exists_sameAt_of_declaresAt hj
  exact hnone i hdecl ((namedAt_iff_of_sameAt hi).mp hname)

theorem exists_target (h : SameAt contracts contracts' i j) (hb : b ∈ targets contracts i callee) :
    ∃ b' ∈ targets contracts' j callee, Corresponds contracts contracts' b b' := by
  generalize hts : targets contracts i callee = ts at hb
  cases bound_iff.mpr hts.symm with
  | own hdecl =>
    rw [List.mem_singleton.mp hb, ← (Bound.own ((declaresAt_iff_of_sameAt h).mp hdecl)).eq_targets]
    exact ⟨_, List.mem_cons_self, .declared h⟩
  | @inherited before after a k hn hlineage hbefore hk hname _ =>
    obtain ⟨k', hk', hdecl⟩ := hr.exists_sameAt_of_declaresAt hk
    rw [inheritanceAt_eq_of_sameAt h] at hlineage
    have hname' := (namedAt_iff_of_sameAt hk').mp hname
    have hfirst : ∀ l < k', DeclaresAt contracts' l callee → ¬ NamedAt contracts' l a := by
      rintro l hlt - hl
      exact Nat.ne_of_lt hlt (hl.inj hr.symm.distinct hname')
    have hbound := Bound.inherited (mt (declaresAt_iff_of_sameAt h).mpr hn) hlineage
      (fun b hb => hr.not_namedAt (hbefore b hb)) hdecl hname' hfirst
    rw [List.mem_singleton.mp hb, ← hbound.eq_targets]
    exact ⟨_, List.mem_cons_self, .declared hk'⟩
  | @everywhere known hn hlineage _ hmem _ =>
    obtain ⟨k, hk, rfl⟩ := List.mem_map.mp hb
    obtain ⟨k', hk', hdecl⟩ := hr.exists_sameAt_of_declaresAt ((hmem k).mp hk)
    have hk'' := mem_declarers_iff.mpr hdecl
    rw [inheritanceAt_eq_of_sameAt h] at hlineage
    have hbound := Bound.everywhere (mt (declaresAt_iff_of_sameAt h).mpr hn)
      (fun a ha => hr.not_namedAt (hlineage a ha)) (pairwise_declarers contracts' callee)
      (fun _ => mem_declarers_iff) (List.ne_nil_of_mem hk'')
    rw [← hbound.eq_targets]
    exact ⟨_, List.mem_map.mpr ⟨k', hk'', rfl⟩, .declared hk'⟩
  | unresolved hnone =>
    have hbound : Bound contracts' j callee _ := .unresolved fun l hl => by
      obtain ⟨l', -, hl'⟩ := hr.symm.exists_sameAt_of_declaresAt hl
      exact hnone l' hl'
    rw [List.mem_singleton.mp hb, ← hbound.eq_targets]
    exact ⟨_, List.mem_cons_self, .unresolved⟩

/-- A call in one order is a call in the other. -/
theorem exists_edge (hcb : Corresponds contracts contracts' b b')
    (he : Edge (ofContracts contracts).edges b c) :
    ∃ c', Edge (ofContracts contracts').edges b' c' ∧ Corresponds contracts contracts' c c' := by
  rw [Edge, mem_edges_iff] at he
  cases hcb with
  | unresolved => cases he
  | @declared i j name h =>
    obtain ⟨callee, hcallee, ht⟩ := List.mem_flatMap.mp he
    obtain ⟨c', hc', hcc⟩ := hr.exists_target h ht
    rw [calleesAt_eq_of_sameAt h] at hcallee
    exact ⟨c', mem_edges_iff.mpr (List.mem_flatMap.mpr ⟨callee, hcallee, hc'⟩), hcc⟩

/-- What calls lead to in one order they lead to in the other. -/
theorem exists_path (hcb : Corresponds contracts contracts' b b')
    (hpath : ReflTransGen (Edge (ofContracts contracts).edges) b c) :
    ∃ c', ReflTransGen (Edge (ofContracts contracts').edges) b' c' ∧
      Corresponds contracts contracts' c c' := by
  induction hpath with
  | refl => exact ⟨b', .refl, hcb⟩
  | tail _ hedge ih =>
    obtain ⟨d, hd, hcd⟩ := ih
    obtain ⟨c', hc', hcc⟩ := hr.exists_edge hcd hedge
    exact ⟨c', hd.tail hc', hcc⟩

theorem mem_closure? {f : String} (h : SameAt contracts contracts' i j)
    (hname : name ∈ (closure? (ofContracts contracts) i f).getD []) :
    name ∈ (closure? (ofContracts contracts') j f).getD [] := by
  obtain ⟨hdecl, hcalls, b, hpath, hb, rfl⟩ := mem_getD_closure?_iff.mp hname
  obtain ⟨b', hpath', hbb⟩ := hr.exists_path (.declared h) hpath
  refine mem_getD_closure?_iff.mpr ⟨(declaresAt_iff_of_sameAt h).mp hdecl,
    mt (callsUnknown_iff_of_sameAt h).mpr hcalls, b', hpath', ?_, hbb.name_eq.symm⟩
  rintro rfl
  cases hbb with
  | declared hk =>
    obtain rfl := hk.symm.inj hr.nodup h.symm
    exact hb rfl

/-- The closure of a member has the same names in both orders. -/
theorem mem_closure?_iff {f : String} (h : SameAt contracts contracts' i j) :
    name ∈ (closure? (ofContracts contracts) i f).getD [] ↔
      name ∈ (closure? (ofContracts contracts') j f).getD [] :=
  ⟨hr.mem_closure? h, hr.symm.mem_closure? h.symm⟩

end Reordered

end TokenAudit
