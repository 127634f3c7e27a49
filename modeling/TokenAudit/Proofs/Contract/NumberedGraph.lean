import Mathlib.Data.List.Perm.Basic
import TokenAudit.Contract.NumberedGraph
import TokenAudit.Proofs.Contract.Counts

/-! The numbered call graph has one node for each key, and shows the call graph of the labels. Each
step that adds to it keeps both, so it has as many nodes and edges and the same closures. -/

namespace TokenAudit

open TokenAudit.Graph

section Related

variable {α β : Type} {R : α → β → Prop} {l : List α} {l' : List β} {x : α} {y : β}

theorem mem_iff_of_forall₂ (hR : Relator.BiUnique R) (hl : List.Forall₂ R l l') :
    x ∈ l ↔ ∃ y ∈ l', R x y := by
  constructor
  · exact exists_of_forall₂ hl
  · intro h
    obtain ⟨y, hy, hxy⟩ := h
    exact (List.rel_mem hR hxy hl).mpr hy

/-- What stands for the same on both sides stands for the same after it is added. -/
theorem forall₂_append [DecidableEq α] [DecidableEq β] (hR : Relator.BiUnique R)
    (hl : List.Forall₂ R l l') (hx : R x y) :
    List.Forall₂ R (CallGraph.append l x) (CallGraph.append l' y) := by
  have hmem : x ∈ l ↔ y ∈ l' := List.rel_mem hR hx hl
  unfold CallGraph.append
  by_cases h : x ∈ l
  · rw [if_pos h, if_pos (hmem.mp h)]
    exact hl
  · rw [if_neg h, if_neg (mt hmem.mpr h)]
    exact List.rel_append hl (.cons hx .nil)

end Related

namespace CallGraph

def ofNodes (nodes : List CallNode) : CallGraph := { nodes, edges := [], obscure := [] }

def addNode (c : CallGraph) (a : CallNode) : CallGraph := { c with nodes := append c.nodes a }

theorem declared_eq_foldl (contracts : List Contract) :
    declared contracts =
      (members contracts).foldl (fun c p => addNode c ⟨some p.1, p.2.name⟩) (ofNodes []) :=
  (List.foldl_hom ofNodes fun _ _ => rfl).symm

end CallGraph

namespace NumberedGraph

open CallGraph

variable {contracts : List Contract} {g : NumberedGraph} {c : CallGraph} {a b : CallNode}
variable {i n k : Nat} {contract : Option Nat} {name : String}

def LabelAt (g : NumberedGraph) (n : Nat) (a : CallNode) : Prop := g.labels[n]? = some a

/-- The ends of an edge have these labels. -/
def Joins (g : NumberedGraph) (e : Nat × Nat) (e' : CallNode × CallNode) : Prop :=
  g.LabelAt e.1 e'.1 ∧ g.LabelAt e.2 e'.2

/-- Each key is in the index once, with the node that has the key as its label. -/
structure Indexed (g : NumberedGraph) : Prop where
  nodup : (g.index.map (·.1)).Nodup
  mem_iff : ∀ contract name n,
    ((contract, name), n) ∈ g.index ↔ g.LabelAt n ⟨contract, name⟩

theorem Indexed.lookup_iff (hg : g.Indexed) :
    g.index.lookup (contract, name) = some n ↔ g.LabelAt n ⟨contract, name⟩ := by
  rw [lookup_eq_some_iff_mem hg.nodup, hg.mem_iff]

theorem Indexed.biUnique_labelAt (hg : g.Indexed) : Relator.BiUnique g.LabelAt := by
  constructor
  · intro n a k hn hk
    have hn' := hg.lookup_iff.mpr hn
    have hk' := hg.lookup_iff.mpr hk
    exact Option.some.inj (hn'.symm.trans hk')
  · intro n a b ha hb
    exact Option.some.inj (ha.symm.trans hb)

theorem Indexed.biUnique_joins (hg : g.Indexed) : Relator.BiUnique g.Joins := by
  obtain ⟨hleft, hright⟩ := hg.biUnique_labelAt
  constructor
  · intro e e' f he hf
    exact Prod.ext (hleft he.1 hf.1) (hleft he.2 hf.2)
  · intro e e' f' he hf
    exact Prod.ext (hright he.1 hf.1) (hright he.2 hf.2)

theorem labelAt_add_iff :
    (g.add contract name).LabelAt n a ↔
      g.LabelAt n a ∨ (n = g.nodeCount ∧ a = ⟨contract, name⟩) := by
  unfold LabelAt add nodeCount
  rw [List.getElem?_append]
  by_cases hn : n < g.labels.length
  · have hne : n ≠ g.labels.length := by omega
    simp [hn, hne]
  · have hnone : g.labels[n]? = none := List.getElem?_eq_none (by omega)
    have hlast : n - g.labels.length = 0 ↔ n = g.labels.length := by omega
    rw [if_neg hn, hnone, List.getElem?_singleton]
    simp [hlast, eq_comm]

theorem LabelAt.mono {g' : NumberedGraph} (h : g.LabelAt n a) (hp : g.labels <+: g'.labels) :
    g'.LabelAt n a := by
  obtain ⟨hn, ha⟩ := List.getElem?_eq_some_iff.mp h
  unfold LabelAt
  rw [← ha, hp.getElem hn]
  exact List.getElem?_eq_getElem _

theorem Indexed.lookup_eq_none_iff (hg : g.Indexed) :
    g.index.lookup (contract, name) = none ↔ ⟨contract, name⟩ ∉ g.labels := by
  rw [List.mem_iff_getElem?, Option.eq_none_iff_forall_ne_some, not_exists]
  exact forall_congr' fun n => not_congr hg.lookup_iff

theorem Indexed.add (hg : g.Indexed) (hnew : ⟨contract, name⟩ ∉ g.labels) :
    (g.add contract name).Indexed := by
  have hfresh : (contract, name) ∉ g.index.map (·.1) := by
    intro hmem
    obtain ⟨⟨key, n⟩, hn, rfl⟩ := List.mem_map.mp hmem
    exact hnew (List.mem_of_getElem? ((hg.mem_iff _ _ n).mp hn))
  constructor
  · unfold NumberedGraph.add
    rw [List.map_append, List.nodup_append]
    refine ⟨hg.nodup, List.nodup_singleton _, ?_⟩
    intro key hkey key' hkey' heq
    obtain rfl := List.mem_singleton.mp hkey'
    rw [heq] at hkey
    exact hfresh hkey
  · intro contract' name' n
    rw [labelAt_add_iff, ← hg.mem_iff]
    simp [NumberedGraph.add, and_comm]

/-- A key has a node, or it gets one with the next number. -/
theorem Indexed.node_cases (hg : g.Indexed) (contract : Option Nat) (name : String) :
    (∃ n, g.LabelAt n ⟨contract, name⟩ ∧ g.node contract name = (g, n)) ∨
      (⟨contract, name⟩ ∉ g.labels ∧ (g.add contract name).Indexed ∧
        g.node contract name = (g.add contract name, g.nodeCount)) := by
  cases hl : g.index.lookup (contract, name) with
  | some n =>
    refine Or.inl ⟨n, hg.lookup_iff.mp hl, ?_⟩
    unfold node
    rw [hl]
  | none =>
    have hnew := hg.lookup_eq_none_iff.mp hl
    refine Or.inr ⟨hnew, hg.add hnew, ?_⟩
    unfold node
    rw [hl]

theorem prefix_node (g : NumberedGraph) (contract : Option Nat) (name : String) :
    g.labels <+: (g.node contract name).1.labels := by
  unfold node
  split
  · exact List.prefix_rfl
  · exact List.prefix_append _ _

theorem Indexed.labelAt_node (hg : g.Indexed) (contract : Option Nat) (name : String) :
    (g.node contract name).1.LabelAt (g.node contract name).2 ⟨contract, name⟩ := by
  rcases hg.node_cases contract name with ⟨n, hn, hnode⟩ | ⟨-, -, hnode⟩
  · rw [hnode]
    exact hn
  · rw [hnode]
    exact labelAt_add_iff.mpr (Or.inr ⟨rfl, rfl⟩)

/-- The graph is `c` with numbers in place of its nodes. -/
structure Shows (g : NumberedGraph) (c : CallGraph) : Prop where
  indexed : g.Indexed
  labels : g.labels = c.nodes
  edges : List.Forall₂ g.Joins g.edges c.edges
  obscure : List.Forall₂ g.LabelAt g.obscure c.obscure

theorem Shows.node (h : g.Shows c) (a : CallNode) :
    (g.node a.contract a.name).1.Shows (c.addNode a) := by
  rcases h.indexed.node_cases a.contract a.name with ⟨n, hn, hnode⟩ | ⟨hnew, hindexed, hnode⟩
  · have hmem : a ∈ c.nodes := h.labels ▸ List.mem_of_getElem? hn
    have hsame : append c.nodes a = c.nodes := if_pos hmem
    rw [hnode, addNode, hsame]
    exact h
  · have hgrow : g.labels <+: (g.add a.contract a.name).labels := List.prefix_append _ _
    rw [hnode]
    refine ⟨hindexed, ?_, ?_, ?_⟩
    · rw [h.labels] at hnew
      rw [NumberedGraph.add, addNode, append, if_neg hnew, h.labels]
    · exact h.edges.imp fun _ _ he => ⟨he.1.mono hgrow, he.2.mono hgrow⟩
    · exact h.obscure.imp fun _ _ ha => ha.mono hgrow

/-- After a step from `g` the graph is `c` with numbers, and has kept the numbers of `g`. -/
structure Continues (g g' : NumberedGraph) (c : CallGraph) : Prop where
  shows : g'.Shows c
  grows : g.labels <+: g'.labels

/-- What every step of a loop does, the loop does. A step may use the numbers that stood at the start
of the loop. -/
theorem Shows.foldl {β : Type} {step : NumberedGraph → β → NumberedGraph}
    {step' : CallGraph → β → CallGraph} (h : g.Shows c) (l : List β)
    (hstep : ∀ x ∈ l, ∀ g' c', g.Continues g' c' → g'.Continues (step g' x) (step' c' x)) :
    g.Continues (l.foldl step g) (l.foldl step' c) := by
  induction l generalizing g c with
  | nil => exact ⟨h, List.prefix_rfl⟩
  | cons x l ih =>
    obtain ⟨hx, hgrow⟩ := hstep x List.mem_cons_self g c ⟨h, List.prefix_rfl⟩
    have hrest := ih hx fun y hy g' c' hc =>
      hstep y (List.mem_cons_of_mem x hy) g' c' ⟨hc.shows, hgrow.trans hc.grows⟩
    exact ⟨hrest.shows, hgrow.trans hrest.grows⟩

theorem Shows.link (h : g.Shows c) (hs : g.LabelAt n a) (b : CallNode) :
    g.Continues (g.link n b) (c.addEdge a b) := by
  have hnode := h.node b
  have hgrow := prefix_node g b.contract b.name
  have hb := h.indexed.labelAt_node b.contract b.name
  have hjoins : (g.node b.contract b.name).1.Joins (n, (g.node b.contract b.name).2) (a, b) :=
    ⟨hs.mono hgrow, hb⟩
  refine ⟨⟨⟨hnode.indexed.nodup, hnode.indexed.mem_iff⟩, hnode.labels, ?_, hnode.obscure⟩, hgrow⟩
  exact forall₂_append hnode.indexed.biUnique_joins hnode.edges hjoins

/-- A member whose node is there adds its edges, or its node to those with unknown calls. -/
theorem Shows.addMember {m : Member} (h : g.Shows c) (hm : ⟨some i, m.name⟩ ∈ g.labels) :
    g.Continues (NumberedGraph.addMember contracts g i m)
      (CallGraph.addMember contracts c i m) := by
  rcases h.indexed.node_cases (some i) m.name with ⟨n, hn, hnode⟩ | ⟨hnew, -, -⟩
  · -- The source has its number from the first pass, and only targets are new.
    unfold NumberedGraph.addMember CallGraph.addMember
    simp only [hnode]
    cases callees? m with
    | none =>
      refine ⟨⟨⟨h.indexed.nodup, h.indexed.mem_iff⟩, h.labels, h.edges, ?_⟩, List.prefix_rfl⟩
      exact forall₂_append h.indexed.biUnique_labelAt h.obscure hn
    | some callees =>
      refine h.foldl callees fun callee _ g' c' hc => ?_
      refine hc.shows.foldl _ fun b _ g'' c'' hc' => ?_
      exact hc'.shows.link (hn.mono (hc.grows.trans hc'.grows)) b
  · exact absurd hm hnew

/-- The first pass gives a node to every declared name. -/
theorem shows_declared (contracts : List Contract) :
    (declared contracts).Shows (CallGraph.declared contracts) := by
  have hempty : ({} : NumberedGraph).Shows (ofNodes []) :=
    ⟨⟨List.nodup_nil, by simp [LabelAt]⟩, rfl, .nil, .nil⟩
  rw [declared_eq_foldl]
  refine (hempty.foldl (members contracts) fun p _ g' c' hc => ?_).shows
  exact ⟨hc.shows.node ⟨some p.1, p.2.name⟩, prefix_node g' _ _⟩

/-- The numbered graph is the call graph, with a number for each node. -/
theorem shows_ofContracts (contracts : List Contract) :
    (ofContracts contracts).Shows (CallGraph.ofContracts contracts) := by
  have hdeclared := shows_declared contracts
  refine (hdeclared.foldl (members contracts) fun p hp g' c' hc => ?_).shows
  apply hc.shows.addMember
  apply hc.grows.subset
  rw [hdeclared.labels, declared_eq]
  exact List.mem_eraseDups.mpr (List.mem_map.mpr ⟨p, hp, rfl⟩)

theorem mem_edges_iff :
    (n, k) ∈ (ofContracts contracts).edges ↔
      ∃ a b, (ofContracts contracts).LabelAt n a ∧ (ofContracts contracts).LabelAt k b ∧
        Binds contracts a b := by
  have h := shows_ofContracts contracts
  rw [mem_iff_of_forall₂ h.indexed.biUnique_joins h.edges]
  constructor
  · intro he
    obtain ⟨⟨a, b⟩, hab, hn, hk⟩ := he
    exact ⟨a, b, hn, hk, mem_edges_iff_binds.mp hab⟩
  · intro he
    obtain ⟨a, b, hn, hk, hab⟩ := he
    exact ⟨(a, b), mem_edges_iff_binds.mpr hab, hn, hk⟩

theorem mem_obscure_iff :
    n ∈ (ofContracts contracts).obscure ↔
      ∃ i name, (ofContracts contracts).LabelAt n ⟨some i, name⟩ ∧
        CallsUnknown contracts i name := by
  have h := shows_ofContracts contracts
  rw [mem_iff_of_forall₂ h.indexed.biUnique_labelAt h.obscure]
  constructor
  · intro hn
    obtain ⟨a, ha, hlabel⟩ := hn
    match a with
    | ⟨some i, name⟩ => exact ⟨i, name, hlabel, CallGraph.mem_obscure_iff.mp ha⟩
    | ⟨none, name⟩ => exact absurd ha not_mem_obscure_none
  · intro hn
    obtain ⟨i, name, hlabel, hunknown⟩ := hn
    exact ⟨_, CallGraph.mem_obscure_iff.mpr hunknown, hlabel⟩

theorem filterMap_name? {visited : List Nat} {visited' : List CallNode}
    (h : List.Forall₂ g.LabelAt visited visited') :
    visited.filterMap g.name? = visited'.map (·.name) := by
  induction h with
  | nil => rfl
  | @cons n a _ _ hn _ ih =>
    have hname : g.name? n = some a.name := by rw [name?, hn, Option.map_some]
    rw [List.filterMap_cons_some hname, ih, List.map_cons]

/-- The search by number gives the names that the search by label gives. -/
theorem Shows.closure?_eq (h : g.Shows c) (i : Nat) (name : String) :
    g.closure? i name = CallGraph.closure? c i name := by
  have hR := h.indexed.biUnique_labelAt
  unfold closure? CallGraph.closure?
  cases hl : g.index.lookup (some i, name) with
  | none =>
    have hnone : ⟨some i, name⟩ ∉ c.nodes := h.labels ▸ h.indexed.lookup_eq_none_iff.mp hl
    simp [hnone]
  | some start =>
    have hstart := h.indexed.lookup_iff.mp hl
    have hmem : ⟨some i, name⟩ ∈ c.nodes := h.labels ▸ List.mem_of_getElem? hstart
    have hobscure : start ∈ g.obscure ↔ ⟨some i, name⟩ ∈ c.obscure :=
      List.rel_mem hR hstart h.obscure
    have hvisited := forall₂_preorder hR h.edges .nil (.cons hstart .nil)
    have hothers : List.Forall₂ g.LabelAt
        ((preorder g.edges [] [start]).filter (· ≠ start))
        ((preorder c.edges [] [⟨some i, name⟩]).filter (· ≠ ⟨some i, name⟩)) := by
      refine List.rel_filter (fun n a hn => ?_) hvisited
      simpa using not_congr (Relator.rel_eq hR hn hstart)
    by_cases hunknown : start ∈ g.obscure
    · simp [hunknown, hobscure.mp hunknown]
    · have hknown := mt hobscure.mpr hunknown
      rw [Option.bind_eq_bind, Option.bind_some, if_neg hunknown, if_pos ⟨hmem, hknown⟩]
      dsimp only
      rw [filterMap_name? hothers]

theorem LabelAt.lt_nodeCount (h : g.LabelAt n a) : n < g.nodeCount :=
  (List.getElem?_eq_some_iff.mp h).1

/-- Every node has one key in the index. -/
theorem Indexed.existsUnique_key (hg : g.Indexed) (hn : n < g.nodeCount) :
    ∃! key, g.index.lookup key = some n := by
  have hlabel : g.LabelAt n g.labels[n] := List.getElem?_eq_getElem hn
  refine ⟨(g.labels[n].contract, g.labels[n].name), hg.lookup_iff.mpr hlabel, ?_⟩
  intro key hkey
  have hkey' := hg.lookup_iff.mp hkey
  have hsame := hg.biUnique_labelAt.2 hkey' hlabel
  rw [← hsame]

/-- The numbered graph of any contracts. Its index leads from each key to one node, which has the
key as its label, and to each node from one key. From one node to another there is at most one edge:
there is one if calls of the first are bound to the second, so that none leads from a name that no
contract declares. There are as many nodes as declared names and names left unresolved, and as many
edges as pairs of a member's node and a node that its calls are bound to. The nodes with unknown
calls are those of which some member has no call data. -/
theorem ofContracts_indexed_counted (contracts : List Contract) :
    ((ofContracts contracts).index.map (·.1)).Nodup ∧
    (∀ key n, (ofContracts contracts).index.lookup key = some n →
      n < (ofContracts contracts).nodeCount ∧
        (ofContracts contracts).labels[n]? = some ⟨key.1, key.2⟩) ∧
    (∀ n < (ofContracts contracts).nodeCount,
      ∃! key, (ofContracts contracts).index.lookup key = some n) ∧
    (ofContracts contracts).edges.Nodup ∧
    (∀ n k, (n, k) ∈ (ofContracts contracts).edges ↔
      ∃ a b, (ofContracts contracts).labels[n]? = some a ∧
        (ofContracts contracts).labels[k]? = some b ∧ Binds contracts a b) ∧
    (∀ n k name, (ofContracts contracts).labels[n]? = some ⟨none, name⟩ →
      (n, k) ∉ (ofContracts contracts).edges) ∧
    ((ofContracts contracts).nodeCount : ℕ∞) =
      {p : Nat × String | DeclaresAt contracts p.1 p.2}.encard + (unresolved contracts).encard ∧
    ((ofContracts contracts).edgeCount : ℕ∞) =
      {e : CallNode × CallNode | Binds contracts e.1 e.2}.encard ∧
    ∀ n, n ∈ (ofContracts contracts).obscure ↔
      ∃ i name, (ofContracts contracts).labels[n]? = some ⟨some i, name⟩ ∧
        CallsUnknown contracts i name := by
  have h := shows_ofContracts contracts
  have hR := h.indexed.biUnique_labelAt
  refine ⟨h.indexed.nodup, fun key n hkey => ?_, fun n => h.indexed.existsUnique_key, ?_,
    fun n k => mem_edges_iff, fun n k name hn he => ?_, ?_, ?_, fun n => mem_obscure_iff⟩
  · have hlabel := h.indexed.lookup_iff.mp hkey
    exact ⟨hlabel.lt_nodeCount, hlabel⟩
  · have hnodup : (ofContracts contracts).edges.Nodup ↔
        (CallGraph.ofContracts contracts).edges.Nodup :=
      List.rel_nodup h.indexed.biUnique_joins h.edges
    exact hnodup.mpr (nodup_ofContracts contracts).2
  · obtain ⟨a, b, ha, -, hbinds⟩ := mem_edges_iff.mp he
    obtain rfl := hR.2 ha hn
    cases hbinds
  · rw [nodeCount, h.labels]
    exact length_nodes contracts
  · rw [edgeCount, h.edges.length_eq]
    exact length_edges contracts

example : (ofContracts hooked).nodeCount = 3 ∧ (ofContracts hooked).edgeCount = 2 := by
  decide

end NumberedGraph

end TokenAudit
