/-! Depth-first search in a finite directed graph, given as the list of its edges. -/

namespace TokenAudit.Graph

variable {α : Type} [DecidableEq α]

/-- The ends of the edges from `a`, in the order of the edges. -/
def successors (edges : List (α × α)) (a : α) : List α :=
  (edges.filter (·.1 = a)).map (·.2)

/-- Edges whose start has not been visited. -/
def ahead (edges : List (α × α)) (visited : List α) : List (α × α) :=
  edges.filter (·.1 ∉ visited)

theorem length_ahead_cons (edges : List (α × α)) {visited : List α} {a : α} (h : a ∉ visited) :
    (ahead edges (a :: visited)).length + (successors edges a).length =
      (ahead edges visited).length := by
  induction edges with
  | nil => rfl
  | cons e es ih =>
    simp only [ahead, successors, List.length_map, List.mem_cons, not_or] at ih ⊢
    by_cases ha : e.1 = a
    · subst ha
      simp [h] at ih ⊢
      omega
    · by_cases hv : e.1 ∈ visited <;> simp [ha, hv] at ih ⊢ <;> omega

/-- The vertices reached from the stack, each followed by all that is reached first from its
successors in order. `visited` is last first. -/
def preorder (edges : List (α × α)) (visited : List α) : List α → List α
  | [] => visited.reverse
  | a :: stack =>
    if a ∈ visited then preorder edges visited stack
    else preorder edges (a :: visited) (successors edges a ++ stack)
termination_by stack => (ahead edges visited).length + stack.length
decreasing_by
  · simp
  · have := length_ahead_cons edges (a := a) (by assumption)
    simp
    omega

/-- All vertices that one or more edges lead to from `a`. -/
def reachable (edges : List (α × α)) (a : α) : List α :=
  preorder edges [] (successors edges a)

end TokenAudit.Graph
