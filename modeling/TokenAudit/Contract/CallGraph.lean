import TokenAudit.Contract.Basic
import TokenAudit.Graph.Preorder

/-!
The call graph of a list of contracts. Calls are known by name only, so a name is bound to the
first contract in the caller's lineage that declares it, else to every contract that does, else
to a vertex of its own that no contract declares.
-/

namespace TokenAudit

/-- The function `name` of the contract at position `contract`, or a name that no contract
declares. -/
structure CallNode where
  contract : Option Nat
  name : String
  deriving DecidableEq

structure CallGraph where
  nodes : List CallNode
  edges : List (CallNode × CallNode)
  /-- Nodes of which some member has unknown calls. -/
  obscure : List CallNode

namespace CallGraph

/-- `a` at the end of the list, unless it is in it. -/
def append {α : Type} [DecidableEq α] (l : List α) (a : α) : List α := if a ∈ l then l else l ++ [a]

/-- The positions of the contracts that declare `name`. -/
def declarers (contracts : List Contract) (name : String) : List Nat :=
  (List.range contracts.length).filter fun i => contracts[i]?.any fun c => decide (c.Declares name)

/-- The contracts to which a call of `callee` in the contract `caller` is bound. -/
def bindings (contracts : List Contract) (caller : Nat) (callee : String) : List Nat :=
  let known := declarers contracts callee
  if caller ∈ known then [caller]
  else
    let lineage := (contracts[caller]?.map (·.inheritance)).getD []
    let inherited := lineage.findSome? fun ancestor =>
      known.find? fun i => contracts[i]?.any (·.name == ancestor)
    match inherited with
    | some i => [i]
    | none => known

def targets (contracts : List Contract) (caller : Nat) (callee : String) : List CallNode :=
  match bindings contracts caller callee with
  | [] => [⟨none, callee⟩]
  | known => known.map fun i => ⟨some i, callee⟩

/-- The names that a member with known calls leads to: its modifiers, then its calls. -/
def callees? (m : Member) : Option (List String) :=
  m.calls.map fun calls => m.modifiers.getD [] ++ calls

/-- Members with the position of their contract, in load order. -/
def members (contracts : List Contract) : List (Nat × Member) :=
  contracts.zipIdx.flatMap fun (c, i) => c.members.map fun m => (i, m)

def addEdge (g : CallGraph) (source target : CallNode) : CallGraph :=
  { g with
    nodes := append g.nodes target
    edges := append g.edges (source, target) }

def addMember (contracts : List Contract) (g : CallGraph) (i : Nat) (m : Member) : CallGraph :=
  let node : CallNode := ⟨some i, m.name⟩
  match callees? m with
  | none => { g with obscure := append g.obscure node }
  | some callees =>
    callees.foldl (fun g callee => (targets contracts i callee).foldl (addEdge · node) g) g

/-- A graph with a node for every declared name and no edges. -/
def declared (contracts : List Contract) : CallGraph :=
  { nodes := (members contracts).foldl (fun ns (i, m) => append ns ⟨some i, m.name⟩) []
    edges := []
    obscure := [] }

def ofContracts (contracts : List Contract) : CallGraph :=
  (members contracts).foldl (fun g (i, m) => addMember contracts g i m) (declared contracts)

/-- The names of all functions that calls lead to from `name` in the contract at position `i`, in
depth-first order. Unknown if the contract does not declare `name` or its calls are unknown. -/
def closure? (g : CallGraph) (i : Nat) (name : String) : Option (List String) :=
  let start : CallNode := ⟨some i, name⟩
  if start ∈ g.nodes ∧ start ∉ g.obscure then
    some (((Graph.preorder g.edges [] [start]).filter (· ≠ start)).map (·.name)).eraseDups
  else none

end CallGraph

/-- The closure of `name` in the first contract called `contract`. -/
def closureByName? (contracts : List Contract) (g : CallGraph) (contract name : String) :
    Option (List String) := do
  g.closure? (← contracts.findIdx? (·.name == contract)) name

/-- The closure of `name` in the first contract equal to `contract`. -/
def closureOf? (contracts : List Contract) (g : CallGraph) (contract : Contract) (name : String) :
    Option (List String) := do
  g.closure? (← contracts.findIdx? (· == contract)) name

end TokenAudit
