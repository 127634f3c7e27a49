import TokenAudit.Proofs.Contract.Modifiers

/-! Where a closure has the name of the member it starts from. The start is left out as a node, not
by its name, so a member of that name in another contract is listed when calls lead to it. -/

namespace TokenAudit.CallGraph

open TokenAudit.Graph Relation

variable {contracts : List Contract} {a : CallNode} {i j : Nat} {f name callee : String}
variable {names : List String}

theorem declaresAt_of_closure? (hc : closure? (ofContracts contracts) i f = some names) :
    DeclaresAt contracts i f := by
  unfold closure? at hc
  dsimp only at hc
  split_ifs at hc with hknown
  exact mem_nodes_iff.mp hknown.1

theorem targets_of_declaresAt (hown : DeclaresAt contracts i callee) :
    targets contracts i callee = [⟨some i, callee⟩] :=
  (Bound.own hown).eq_targets.symm

/-- A name that some contract declares has no node of its own. -/
theorem not_declaresAt_of_mem_targets (ht : ⟨none, name⟩ ∈ targets contracts i callee) :
    ¬ DeclaresAt contracts j name := by
  obtain rfl : name = callee := name_of_mem_targets ht
  generalize hts : targets contracts i name = ts at ht
  cases bound_iff.mpr hts.symm with
  | own | inherited => simp at ht
  | everywhere => simp at ht
  | unresolved hnone => exact hnone j

/-- Calls lead to members that are declared, or to names that no contract declares. -/
theorem declaresAt_of_edge {b : CallNode} (he : Edge (ofContracts contracts).edges a b)
    (hname : DeclaresAt contracts i b.name) :
    ∃ j, b.contract = some j ∧ DeclaresAt contracts j b.name := by
  obtain ⟨_ | k, g⟩ := a
  · rw [Edge, mem_edges_iff] at he
    cases he
  rw [Edge, mem_edges_iff] at he
  obtain ⟨callee, -, hb⟩ := List.mem_flatMap.mp he
  obtain ⟨_ | j, name⟩ := b
  · exact absurd hname (not_declaresAt_of_mem_targets hb)
  · obtain ⟨rfl, hj⟩ := declaresAt_of_mem_targets hb
    exact ⟨j, rfl, hj⟩

/-- A closure has the name of its start exactly if calls lead from there to a member of that name
in another contract. The call that does comes from a contract other than that of the start, since a
contract binds the names it declares to itself. -/
theorem own_name_mem_closure_iff (hc : closure? (ofContracts contracts) i f = some names) :
    (f ∈ names ↔ ∃ j, j ≠ i ∧ DeclaresAt contracts j f ∧
      ReflTransGen (Edge (ofContracts contracts).edges) ⟨some i, f⟩ ⟨some j, f⟩) ∧
    (f ∈ names ↔ ∃ k g, k ≠ i ∧ Reaches contracts ⟨some i, f⟩ k g ∧ LeadsTo g f ∧
      targets contracts k f ≠ [⟨some i, f⟩]) := by
  have hown : DeclaresAt contracts i f := declaresAt_of_closure? hc
  constructor
  · rw [mem_closure_iff hc]
    constructor
    · rintro ⟨⟨c, name⟩, hpath, hother, rfl⟩
      obtain heq | ⟨a, -, hedge⟩ := ReflTransGen.cases_tail hpath
      · exact absurd heq hother
      obtain ⟨j, rfl, hdecl⟩ := declaresAt_of_edge hedge hown
      refine ⟨j, ?_, hdecl, hpath⟩
      rintro rfl
      exact hother rfl
    · rintro ⟨j, hne, -, hpath⟩
      exact ⟨⟨some j, f⟩, hpath, by simpa using hne, rfl⟩
  · rw [mem_closure_iff_exists_leadsTo hc]
    constructor
    · rintro ⟨k, g, hg, hl, hne⟩
      refine ⟨k, g, ?_, hg, hl, hne⟩
      rintro rfl
      exact hne (targets_of_declaresAt hown)
    · rintro ⟨k, g, -, hg, hl, hne⟩
      exact ⟨k, g, hg, hl, hne⟩

/-- A transfer notifies a hook, which pays for that by a transfer of its own. -/
def hooked : List Contract :=
  [{ name := "Token", kind := .contract, file := "Token.sol",
     members :=
       [{ name := "transfer", kind := .function, visibility := .public,
          calls := some ["notify"] }] },
    { name := "Hook", kind := .contract, file := "Hook.sol",
      members :=
        [{ name := "notify", kind := .function, visibility := .external,
           calls := some ["transfer"] },
          { name := "transfer", kind := .function, visibility := .internal }] }]

theorem closure?_hooked :
    closure? (ofContracts hooked) 0 "transfer" = some ["notify", "transfer"] := by
  decide +kernel

/-- What `transfer` of the token leads to includes the `transfer` of the hook. -/
theorem closure_lists_own_name :
    ¬ ∀ names, closure? (ofContracts hooked) 0 "transfer" = some names → "transfer" ∉ names := by
  intro hnone
  exact hnone _ closure?_hooked (by decide)

theorem own_name_mem_closure_iff_hooked :
    (∃ j, j ≠ 0 ∧ DeclaresAt hooked j "transfer" ∧
      ReflTransGen (Edge (ofContracts hooked).edges) ⟨some 0, "transfer"⟩ ⟨some j, "transfer"⟩) ∧
    closure? (ofContracts hooked) 1 "notify" = some ["transfer"] ∧
      ¬ ∃ k g, k ≠ 1 ∧ Reaches hooked ⟨some 1, "notify"⟩ k g ∧ LeadsTo g "notify" ∧
        targets hooked k "notify" ≠ [⟨some 1, "notify"⟩] := by
  have hnotify : closure? (ofContracts hooked) 1 "notify" = some ["transfer"] := by decide +kernel
  refine ⟨(own_name_mem_closure_iff closure?_hooked).1.mp (by decide), hnotify, fun hother => ?_⟩
  exact absurd ((own_name_mem_closure_iff hnotify).2.mpr hother) (by decide)

end TokenAudit.CallGraph
