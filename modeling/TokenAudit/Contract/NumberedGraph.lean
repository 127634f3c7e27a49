import TokenAudit.Contract.CallGraph

/-!
The call graph with numbered nodes. Nodes are numbered as they are added, edges are pairs of
numbers, and an index leads from the key of a node to its number.
-/

namespace TokenAudit

structure NumberedGraph where
  /-- The label of each node, by its number. -/
  labels : List CallNode := []
  edges : List (Nat × Nat) := []
  /-- Keys, which are the position of a contract or none and a name, with numbers. -/
  index : List ((Option Nat × String) × Nat) := []
  /-- Nodes of which some member has unknown calls. -/
  obscure : List Nat := []

namespace NumberedGraph

open CallGraph

def nodeCount (g : NumberedGraph) : Nat := g.labels.length

def edgeCount (g : NumberedGraph) : Nat := g.edges.length

def add (g : NumberedGraph) (contract : Option Nat) (name : String) : NumberedGraph :=
  { g with
    labels := g.labels ++ [⟨contract, name⟩]
    index := g.index ++ [((contract, name), g.nodeCount)] }

/-- The number of the node with a key, which is added if the index does not know the key. -/
def node (g : NumberedGraph) (contract : Option Nat) (name : String) : NumberedGraph × Nat :=
  match g.index.lookup (contract, name) with
  | some n => (g, n)
  | none => (g.add contract name, g.nodeCount)

def link (g : NumberedGraph) (source : Nat) (target : CallNode) : NumberedGraph :=
  let (g, n) := g.node target.contract target.name
  { g with edges := append g.edges (source, n) }

def addMember (contracts : List Contract) (g : NumberedGraph) (i : Nat) (m : Member) :
    NumberedGraph :=
  let (g, source) := g.node (some i) m.name
  match callees? m with
  | none => { g with obscure := append g.obscure source }
  | some callees =>
    callees.foldl (fun g callee => (targets contracts i callee).foldl (link · source) g) g

/-- A graph with a node for every declared name and no edges. -/
def declared (contracts : List Contract) : NumberedGraph :=
  (members contracts).foldl (fun g (i, m) => (g.node (some i) m.name).1) {}

def ofContracts (contracts : List Contract) : NumberedGraph :=
  (members contracts).foldl (fun g (i, m) => addMember contracts g i m) (declared contracts)

def name? (g : NumberedGraph) (n : Nat) : Option String := g.labels[n]?.map (·.name)

/-- The names of the nodes that a search from the node of a key visits, apart from that node. -/
def closure? (g : NumberedGraph) (i : Nat) (name : String) : Option (List String) := do
  let start ← g.index.lookup (some i, name)
  if start ∈ g.obscure then none
  else
    let visited := (Graph.preorder g.edges [] [start]).filter (· ≠ start)
    some (visited.filterMap g.name?).eraseDups

end NumberedGraph

end TokenAudit
