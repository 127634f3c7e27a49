import TokenAudit.Proofs.Contract.Binding
import TokenAudit.Proofs.Graph.Preorder
import TokenAudit.Proofs.Graph.Reachable

/-! The call graph as lists of nodes and edges without repetitions, and closures as recursive
searches. -/

namespace TokenAudit.CallGraph

open TokenAudit.Graph Relation

variable {contracts : List Contract} {d i : Nat} {f name callee : String}

theorem append_eraseDups {α : Type} [DecidableEq α] [BEq α] [LawfulBEq α] (l : List α) (a : α) :
    append l.eraseDups a = (l ++ [a]).eraseDups := by
  rw [eraseDups_concat, append]
  simp only [List.mem_eraseDups]

/-- The graph of what is left of the lists when every repetition is taken out. -/
def ofLists (nodes : List CallNode) (edges : List (CallNode × CallNode))
    (obscure : List CallNode) : CallGraph :=
  { nodes := nodes.eraseDups, edges := edges.eraseDups, obscure := obscure.eraseDups }

/-- The edges that a member with known calls gives, in order. -/
def edgesOf (contracts : List Contract) (i : Nat) (m : Member) : List (CallNode × CallNode) :=
  ((callees? m).getD []).flatMap fun callee =>
    (targets contracts i callee).map fun t => (⟨some i, m.name⟩, t)

def obscureOf (i : Nat) (m : Member) : List CallNode :=
  if callees? m = none then [⟨some i, m.name⟩] else []

def allEdges (contracts : List Contract) : List (CallNode × CallNode) :=
  (members contracts).flatMap fun (i, m) => edgesOf contracts i m

def declaredNodes (contracts : List Contract) : List CallNode :=
  (members contracts).map fun (i, m) => ⟨some i, m.name⟩

theorem foldl_addEdge (nodes : List CallNode) (edges : List (CallNode × CallNode))
    (obscure : List CallNode) (source : CallNode) (ts : List CallNode) :
    ts.foldl (addEdge · source) (ofLists nodes edges obscure) =
      ofLists (nodes ++ ts) (edges ++ ts.map fun t => (source, t)) obscure := by
  induction ts generalizing nodes edges with
  | nil => simp
  | cons t ts ih =>
    have hadd : addEdge (ofLists nodes edges obscure) source t =
        ofLists (nodes ++ [t]) (edges ++ [(source, t)]) obscure := by
      simp [addEdge, ofLists, append_eraseDups]
    rw [List.foldl_cons, hadd, ih]
    simp

theorem foldl_targets (nodes : List CallNode) (edges : List (CallNode × CallNode))
    (obscure : List CallNode) (i : Nat) (source : CallNode) (callees : List String) :
    callees.foldl (fun g callee => (targets contracts i callee).foldl (addEdge · source) g)
        (ofLists nodes edges obscure) =
      ofLists (nodes ++ callees.flatMap (targets contracts i))
        (edges ++ callees.flatMap fun callee =>
          (targets contracts i callee).map fun t => (source, t)) obscure := by
  induction callees generalizing nodes edges with
  | nil => simp
  | cons callee callees ih =>
    rw [List.foldl_cons, foldl_addEdge, ih]
    simp

theorem addMember_ofLists (nodes : List CallNode) (edges : List (CallNode × CallNode))
    (obscure : List CallNode) (i : Nat) (m : Member) :
    addMember contracts (ofLists nodes edges obscure) i m =
      ofLists (nodes ++ (edgesOf contracts i m).map (·.2)) (edges ++ edgesOf contracts i m)
        (obscure ++ obscureOf i m) := by
  unfold addMember edgesOf obscureOf
  cases hm : callees? m with
  | none => simp [ofLists, append_eraseDups]
  | some callees =>
    simp only [foldl_targets]
    simp [List.map_flatMap, Function.comp_def]

theorem foldl_declared (ms : List (Nat × Member)) (nodes : List CallNode) :
    ms.foldl (fun ns (i, m) => append ns ⟨some i, m.name⟩) nodes.eraseDups =
      (nodes ++ ms.map fun (p : Nat × Member) => (⟨some p.1, p.2.name⟩ : CallNode)).eraseDups := by
  induction ms generalizing nodes with
  | nil => simp
  | cons p ms ih =>
    obtain ⟨i, m⟩ := p
    simp only [List.foldl_cons, append_eraseDups, ih]
    simp

theorem declared_eq (contracts : List Contract) :
    declared contracts = ofLists (declaredNodes contracts) [] [] := by
  have hnodes := foldl_declared (members contracts) []
  simpa [declared, ofLists, declaredNodes] using hnodes

theorem foldl_addMember (ms : List (Nat × Member)) (nodes : List CallNode)
    (edges : List (CallNode × CallNode)) (obscure : List CallNode) :
    ms.foldl (fun g (i, m) => addMember contracts g i m) (ofLists nodes edges obscure) =
      ofLists (nodes ++ (ms.flatMap fun (i, m) => edgesOf contracts i m).map (·.2))
        (edges ++ ms.flatMap fun (i, m) => edgesOf contracts i m)
        (obscure ++ ms.flatMap fun (i, m) => obscureOf i m) := by
  induction ms generalizing nodes edges obscure with
  | nil => simp
  | cons p ms ih =>
    obtain ⟨i, m⟩ := p
    simp only [List.foldl_cons, addMember_ofLists, ih]
    simp

/-- The graph has the declared nodes and the ends of all edges, and each edge once. -/
theorem ofContracts_eq (contracts : List Contract) :
    ofContracts contracts =
      ofLists (declaredNodes contracts ++ (allEdges contracts).map (·.2)) (allEdges contracts)
        ((members contracts).flatMap fun (i, m) => obscureOf i m) := by
  rw [ofContracts, declared_eq, foldl_addMember]
  rfl

theorem mem_members_iff {m : Member} :
    (i, m) ∈ members contracts ↔ ∃ c, contracts[i]? = some c ∧ m ∈ c.members := by
  simp only [members, List.mem_flatMap, List.mem_map, Prod.exists, List.mem_zipIdx_iff_getElem?,
    Prod.mk.injEq]
  constructor
  · intro h
    obtain ⟨c, j, hc, m', hm, rfl, rfl⟩ := h
    exact ⟨c, hc, hm⟩
  · intro h
    obtain ⟨c, hc, hm⟩ := h
    exact ⟨c, i, hc, m, hm, rfl, rfl⟩

theorem declaresAt_of_mem_targets (ht : ⟨some d, name⟩ ∈ targets contracts i callee) :
    name = callee ∧ DeclaresAt contracts d callee := by
  generalize hts : targets contracts i callee = ts at ht
  cases bound_iff.mpr hts.symm with
  | own hown =>
    obtain ⟨rfl, rfl⟩ : d = i ∧ name = callee := by simpa using ht
    exact ⟨rfl, hown⟩
  | inherited _ _ _ hj =>
    obtain ⟨rfl, rfl⟩ := by simpa using ht
    exact ⟨rfl, hj⟩
  | everywhere _ _ _ hmem =>
    obtain ⟨hd, rfl⟩ := by simpa using ht
    exact ⟨rfl, (hmem d).mp hd⟩
  | unresolved => simp at ht

theorem mem_nodes_iff :
    ⟨some d, f⟩ ∈ (ofContracts contracts).nodes ↔ DeclaresAt contracts d f := by
  rw [ofContracts_eq]
  simp only [ofLists, List.mem_eraseDups, List.mem_append]
  constructor
  · intro h
    rcases h with h | h
    · obtain ⟨⟨i, m⟩, hm, he⟩ := List.mem_map.mp h
      obtain ⟨rfl, rfl⟩ : i = d ∧ m.name = f := by simpa using he
      obtain ⟨c, hc, hm⟩ := mem_members_iff.mp hm
      exact ⟨c, hc, m, hm, rfl⟩
    · simp only [allEdges, edgesOf, List.mem_map, List.mem_flatMap, Prod.exists] at h
      obtain ⟨_, _, ⟨i, m, _, callee, _, t, ht, he⟩, rfl⟩ := h
      obtain ⟨-, rfl⟩ := Prod.mk.inj he
      obtain ⟨rfl, hd⟩ := declaresAt_of_mem_targets ht
      exact hd
  · intro h
    obtain ⟨c, hc, m, hm, rfl⟩ := h
    exact Or.inl (List.mem_map.mpr ⟨(d, m), mem_members_iff.mpr ⟨c, hc, hm⟩, rfl⟩)

theorem callees?_eq_none_iff {m : Member} : callees? m = none ↔ m.calls = none := by
  simp [callees?]

/-- Some member `name` of the contract at position `i` has no call data. -/
def CallsUnknown (contracts : List Contract) (i : Nat) (name : String) : Prop :=
  ∃ c m, contracts[i]? = some c ∧ m ∈ c.members ∧ m.name = name ∧ m.calls = none

theorem mem_obscure_iff :
    ⟨some d, f⟩ ∈ (ofContracts contracts).obscure ↔ CallsUnknown contracts d f := by
  rw [ofContracts_eq]
  simp only [ofLists, List.mem_eraseDups, List.mem_flatMap, Prod.exists, obscureOf,
    callees?_eq_none_iff, mem_members_iff]
  constructor
  · intro h
    obtain ⟨i, m, ⟨c, hc, hm⟩, h⟩ := h
    split_ifs at h with hcalls
    · obtain ⟨rfl, rfl⟩ := by simpa using h
      exact ⟨c, m, hc, hm, rfl, hcalls⟩
    · cases h
  · intro h
    obtain ⟨c, m, hc, hm, rfl, hcalls⟩ := h
    exact ⟨d, m, ⟨c, hc, hm⟩, by simp [hcalls]⟩

/-- The names that the members `name` of the contract at position `i` lead to, one member after
another: the modifiers and then the calls of each whose calls are known. -/
def calleesAt (contracts : List Contract) (i : Nat) (name : String) : List String :=
  (((contracts[i]?.map (·.members)).getD []).filter (·.name = name)).flatMap fun m =>
    match m.calls with
    | some calls => m.modifiers.getD [] ++ calls
    | none => []

/-- The calls of the member are known, and the name is one of them or of its modifiers. -/
def LeadsTo (m : Member) (callee : String) : Prop :=
  ∃ calls, m.calls = some calls ∧ (callee ∈ m.modifiers.getD [] ∨ callee ∈ calls)

theorem mem_calleesAt_iff :
    callee ∈ calleesAt contracts i name ↔
      ∃ c m, contracts[i]? = some c ∧ m ∈ c.members ∧ m.name = name ∧ LeadsTo m callee := by
  have hleads : ∀ m : Member, (callee ∈ match m.calls with
      | some calls => m.modifiers.getD [] ++ calls
      | none => []) ↔ LeadsTo m callee := by
    intro m
    unfold LeadsTo
    cases m.calls <;> simp
  simp only [calleesAt, List.mem_flatMap, List.mem_filter, decide_eq_true_eq, hleads]
  cases contracts[i]? with
  | none => simp
  | some c => simp [and_assoc]

/-- What the calls of a node lead to, in order, where every name is bound by `Bound`. -/
inductive Calls (contracts : List Contract) : CallNode → List CallNode → Prop
  | unresolved {name : String} : Calls contracts ⟨none, name⟩ []
  | declared {i : Nat} {name : String} {bound : List (List CallNode)}
      (hb : List.Forall₂ (Bound contracts i) (calleesAt contracts i name) bound) :
      Calls contracts ⟨some i, name⟩ bound.flatten

def callTargets (contracts : List Contract) : CallNode → List CallNode
  | ⟨none, _⟩ => []
  | ⟨some i, name⟩ => (calleesAt contracts i name).flatMap (targets contracts i)

theorem calls_iff {a : CallNode} {bs : List CallNode} :
    Calls contracts a bs ↔ bs = callTargets contracts a := by
  constructor
  · intro h
    cases h with
    | unresolved => rfl
    | declared hb =>
      rw [eq_map_of_forall₂ (hb.imp fun _ _ => Bound.eq_targets)]
      rfl
  · intro h
    subst h
    match a with
    | ⟨none, _⟩ => exact .unresolved
    | ⟨some i, name⟩ =>
      have hb : List.Forall₂ (Bound contracts i) (calleesAt contracts i name)
          ((calleesAt contracts i name).map (targets contracts i)) := by
        rw [List.forall₂_map_right_iff, List.forall₂_same]
        exact fun callee _ => bound_targets contracts i callee
      rw [callTargets, List.flatMap_def]
      exact .declared hb

theorem successors_edgesOf (contracts : List Contract) (j : Nat) (m : Member) (a : CallNode) :
    successors (edgesOf contracts j m) a =
      if a = ⟨some j, m.name⟩ then ((callees? m).getD []).flatMap (targets contracts j)
      else [] := by
  rw [edgesOf, successors_flatMap]
  simp only [successors_map_mk]
  split_ifs with ha
  · rfl
  · simp

/-- The callees of a member, one after another, as nodes. -/
def memberTargets (contracts : List Contract) (i : Nat) (m : Member) : List CallNode :=
  ((callees? m).getD []).flatMap (targets contracts i)

theorem calleesAt_flatMap_targets (contracts : List Contract) (i : Nat) (name : String) :
    (calleesAt contracts i name).flatMap (targets contracts i) =
      (contracts[i]?.map fun c => c.members.flatMap fun m =>
        if m.name = name then memberTargets contracts i m else []).getD [] := by
  have hm : ∀ m : Member, (match m.calls with
      | some calls => m.modifiers.getD [] ++ calls
      | none => []) = (callees? m).getD [] := by
    intro m
    unfold callees?
    cases m.calls <;> rfl
  unfold calleesAt memberTargets
  simp only [hm]
  cases contracts[i]? with
  | none => simp
  | some c =>
    simp only [Option.map_some, Option.getD_some]
    rw [List.flatMap_assoc, flatMap_filter]
    simp only [decide_eq_true_eq]

/-- The edges of a node are those of all the members that share it, in order. -/
theorem successors_allEdges (contracts : List Contract) (a : CallNode) :
    successors (allEdges contracts) a = callTargets contracts a := by
  rw [allEdges, successors_flatMap, members, List.flatMap_assoc]
  simp only [List.flatMap_map, successors_edgesOf]
  obtain ⟨_ | i, name⟩ := a
  · simp [callTargets]
  · have hone := flatMap_zipIdx_ite contracts 0 i fun c =>
      c.members.flatMap fun m => if m.name = name then memberTargets contracts i m else []
    rw [callTargets, calleesAt_flatMap_targets, ← hone]
    congr 1
    funext ⟨c, j⟩
    rw [Nat.zero_add]
    by_cases hj : j = i
    · subst hj
      simp [memberTargets, eq_comm]
    · simp [hj, Ne.symm hj]

theorem mem_edges_iff {a b : CallNode} :
    (a, b) ∈ (ofContracts contracts).edges ↔ b ∈ callTargets contracts a := by
  have hedges : (ofContracts contracts).edges = (allEdges contracts).eraseDups := by
    rw [ofContracts_eq, ofLists]
  rw [hedges, List.mem_eraseDups, ← mem_successors_iff, successors_allEdges]

/-- The nodes that the search by a stack visits are those of the recursive search by `Calls`. -/
theorem search_preorder_edges (contracts : List Contract) (start : CallNode) :
    Search (Calls contracts) [] [start]
      (preorder (ofContracts contracts).edges [] [start]) := by
  obtain ⟨found, hs, hp⟩ := search_preorder (ofContracts contracts).edges [] [start]
  rw [hp, List.reverse_nil, List.nil_append]
  refine hs.of_eraseDups_next fun a bs hbs => ⟨callTargets contracts a, calls_iff.mpr rfl, ?_⟩
  rw [hbs, ofContracts_eq, ofLists, successors_eraseDups, successors_allEdges]

/-- A closure has the names of all that calls lead to, apart from where they start. -/
theorem mem_getD_closure?_iff {f : String} :
    name ∈ (closure? (ofContracts contracts) i f).getD [] ↔
      DeclaresAt contracts i f ∧ ¬ CallsUnknown contracts i f ∧
        ∃ b, ReflTransGen (Edge (ofContracts contracts).edges) ⟨some i, f⟩ b ∧
          b ≠ ⟨some i, f⟩ ∧ b.name = name := by
  have hknown : (⟨some i, f⟩ ∈ (ofContracts contracts).nodes ∧
      ⟨some i, f⟩ ∉ (ofContracts contracts).obscure) ↔
        (DeclaresAt contracts i f ∧ ¬ CallsUnknown contracts i f) :=
    and_congr mem_nodes_iff (not_congr mem_obscure_iff)
  simp only [closure?]
  rw [← and_assoc, ← hknown]
  split_ifs with h
  · simp [h, mem_preorder_iff, and_assoc]
  · simp [h]

/-- The closure of a member is unknown when the contract does not declare it or some member of its
name has no call data. Else it is what the recursive search from it finds, each name once and in
the order of its first node. -/
theorem closure?_ofContracts (contracts : List Contract) (d : Nat) (f : String) :
    (closure? (ofContracts contracts) d f = none ↔
      ¬ DeclaresAt contracts d f ∨ CallsUnknown contracts d f) ∧
    ∀ names, closure? (ofContracts contracts) d f = some names ↔
      DeclaresAt contracts d f ∧ ¬ CallsUnknown contracts d f ∧ names.Nodup ∧
        ∃ visited, Search (Calls contracts) [] [⟨some d, f⟩] visited ∧
          names = ((visited.filter (· ≠ ⟨some d, f⟩)).map (·.name)).eraseDups := by
  have hsearch := search_preorder_edges contracts ⟨some d, f⟩
  have honly : ∀ visited, Search (Calls contracts) [] [⟨some d, f⟩] visited →
      visited = preorder (ofContracts contracts).edges [] [⟨some d, f⟩] := by
    intro visited hv
    refine hv.unique (fun a bs bs' hb hb' => ?_) hsearch
    rw [calls_iff.mp hb, calls_iff.mp hb']
  have hiff : (⟨some d, f⟩ ∈ (ofContracts contracts).nodes ∧
      ⟨some d, f⟩ ∉ (ofContracts contracts).obscure) ↔
        (DeclaresAt contracts d f ∧ ¬ CallsUnknown contracts d f) :=
    and_congr mem_nodes_iff (not_congr mem_obscure_iff)
  unfold closure?
  by_cases hknown : DeclaresAt contracts d f ∧ ¬ CallsUnknown contracts d f
  · simp only [if_pos (hiff.mpr hknown), reduceCtorEq, false_iff, Option.some.injEq]
    refine ⟨by tauto, fun names => ⟨?_, ?_⟩⟩
    · intro h
      subst h
      exact ⟨hknown.1, hknown.2, nodup_eraseDups _, _, hsearch, rfl⟩
    · intro h
      obtain ⟨_, _, _, visited, hv, rfl⟩ := h
      rw [honly visited hv]
  · simp only [if_neg (mt hiff.mp hknown), reduceCtorEq, true_iff, false_iff]
    exact ⟨by tauto, fun names => by tauto⟩

end TokenAudit.CallGraph
