import Mathlib.Data.Set.Card
import TokenAudit.Proofs.Contract.OwnName

/-! How many nodes and edges the call graph has. Nodes are declared names and names left unresolved,
edges are pairs of a node and what its members' calls are bound to. -/

namespace TokenAudit

/-- A list without repetitions is as long as the set of its elements is large. -/
theorem length_eq_encard {α : Type} [DecidableEq α] {l : List α} {s : Set α} (hl : l.Nodup)
    (hs : ∀ a, a ∈ l ↔ a ∈ s) : (l.length : ℕ∞) = s.encard := by
  have hset : s = l.toFinset := by
    ext a
    simp [hs]
  rw [hset, Set.encard_coe_eq_coe_finsetCard, List.toFinset_card_of_nodup hl]

namespace CallGraph

variable {contracts : List Contract} {a b : CallNode} {i : Nat} {name callee : String}

/-- Some member `name` of the contract at position `i` has call data that leads to `callee`. -/
def LeadsFrom (contracts : List Contract) (i : Nat) (name callee : String) : Prop :=
  ∃ c m, contracts[i]? = some c ∧ m ∈ c.members ∧ m.name = name ∧ LeadsTo m callee

/-- The second node is bound to a name that members of the first lead to. -/
inductive Binds (contracts : List Contract) : CallNode → CallNode → Prop
  | bound {i : Nat} {name callee : String} {targets : List CallNode} {target : CallNode}
      (hl : LeadsFrom contracts i name callee) (hb : Bound contracts i callee targets)
      (ht : target ∈ targets) : Binds contracts ⟨some i, name⟩ target

/-- The names that calls lead to and no contract declares. -/
def unresolved (contracts : List Contract) : Set String :=
  {callee | (∃ i name, LeadsFrom contracts i name callee) ∧ ∀ i, ¬ DeclaresAt contracts i callee}

theorem mem_edges_iff_binds : (a, b) ∈ (ofContracts contracts).edges ↔ Binds contracts a b := by
  rw [mem_edges_iff]
  constructor
  · intro h
    match a with
    | ⟨none, _⟩ => cases h
    | ⟨some i, name⟩ =>
      obtain ⟨callee, hcallee, hb⟩ := List.mem_flatMap.mp h
      exact .bound (mem_calleesAt_iff.mp hcallee) (bound_targets contracts i callee) hb
  · intro h
    cases h with
    | bound hl hb ht =>
      rw [hb.eq_targets] at ht
      exact List.mem_flatMap.mpr ⟨_, mem_calleesAt_iff.mpr hl, ht⟩

theorem binds_none_iff : (∃ a, Binds contracts a ⟨none, name⟩) ↔ name ∈ unresolved contracts := by
  constructor
  · intro h
    obtain ⟨a, ha⟩ := h
    cases ha with
    | @bound i source callee ts _ hl hb ht =>
      rw [hb.eq_targets] at ht
      have hname : name = callee := name_of_mem_targets ht
      exact ⟨⟨i, source, hname ▸ hl⟩, fun j => not_declaresAt_of_mem_targets ht⟩
  · intro h
    obtain ⟨⟨i, source, hl⟩, hnone⟩ := h
    exact ⟨⟨some i, source⟩, .bound hl (.unresolved hnone) (List.mem_singleton_self _)⟩

theorem mem_nodes_none_iff :
    ⟨none, name⟩ ∈ (ofContracts contracts).nodes ↔ name ∈ unresolved contracts := by
  rw [← binds_none_iff]
  simp only [← mem_edges_iff_binds, ofContracts_eq, ofLists, List.mem_eraseDups, List.mem_append]
  constructor
  · intro h
    rcases h with h | h
    · obtain ⟨p, -, hp⟩ := List.mem_map.mp h
      cases hp
    · obtain ⟨⟨a, b⟩, he, hb⟩ := List.mem_map.mp h
      exact ⟨a, hb ▸ he⟩
  · intro h
    obtain ⟨a, ha⟩ := h
    exact Or.inr (List.mem_map.mpr ⟨_, ha, rfl⟩)

theorem not_mem_obscure_none : ⟨none, name⟩ ∉ (ofContracts contracts).obscure := by
  rw [ofContracts_eq, ofLists, List.mem_eraseDups, List.mem_flatMap]
  intro h
  obtain ⟨⟨i, m⟩, -, hm⟩ := h
  dsimp only [obscureOf] at hm
  split_ifs at hm
  · cases List.mem_singleton.mp hm
  · cases hm

theorem nodup_ofContracts (contracts : List Contract) :
    (ofContracts contracts).nodes.Nodup ∧ (ofContracts contracts).edges.Nodup := by
  rw [ofContracts_eq]
  exact ⟨nodup_eraseDups _, nodup_eraseDups _⟩

/-- The node of a name that the contract at a position declares. -/
def ownNode (p : Nat × String) : CallNode := ⟨some p.1, p.2⟩

/-- The node of a name that no contract declares. -/
def freeNode (name : String) : CallNode := ⟨none, name⟩

theorem ownNode_injective : ownNode.Injective := by
  intro p q h
  obtain ⟨hi, hname⟩ := CallNode.mk.inj h
  exact Prod.ext (Option.some.inj hi) hname

theorem freeNode_injective : freeNode.Injective := fun _ _ h => (CallNode.mk.inj h).2

theorem freeNode_ne_ownNode (name : String) (p : Nat × String) : freeNode name ≠ ownNode p := by
  intro h
  cases h

theorem length_nodes (contracts : List Contract) :
    ((ofContracts contracts).nodes.length : ℕ∞) =
      {p : Nat × String | DeclaresAt contracts p.1 p.2}.encard + (unresolved contracts).encard := by
  have hdisjoint : Disjoint (ownNode '' {p | DeclaresAt contracts p.1 p.2})
      (freeNode '' unresolved contracts) := by
    rw [Set.disjoint_left]
    intro a ha hb
    obtain ⟨p, -, hp⟩ := ha
    obtain ⟨name, -, hname⟩ := hb
    exact freeNode_ne_ownNode name p (hname.trans hp.symm)
  rw [← ownNode_injective.encard_image, ← freeNode_injective.encard_image,
    ← Set.encard_union_eq hdisjoint]
  apply length_eq_encard (nodup_ofContracts contracts).1
  intro a
  match a with
  | ⟨some i, name⟩ => simp [mem_nodes_iff, ownNode, freeNode]
  | ⟨none, name⟩ => simp [mem_nodes_none_iff, ownNode, freeNode]

theorem length_edges (contracts : List Contract) :
    ((ofContracts contracts).edges.length : ℕ∞) =
      {e : CallNode × CallNode | Binds contracts e.1 e.2}.encard :=
  length_eq_encard (nodup_ofContracts contracts).2 fun _ => mem_edges_iff_binds

end CallGraph

end TokenAudit
