import Mathlib.Logic.Relation
import TokenAudit.Graph.Preorder

/-! Depth-first search from a stack visits what paths from the stack lead to, and nothing else. -/

namespace TokenAudit.Graph

open Relation

variable {α : Type}

/-- An edge leads from `a` to `b`. -/
def Edge (edges : List (α × α)) (a b : α) : Prop := (a, b) ∈ edges

variable [DecidableEq α] {edges : List (α × α)} {visited stack : List α} {a b : α}

theorem edge_iff_mem_successors : Edge edges a b ↔ b ∈ successors edges a := by
  simp [Edge, successors]

theorem mem_preorder_of_mem (ha : a ∈ visited ∨ a ∈ stack) : a ∈ preorder edges visited stack := by
  fun_induction preorder edges visited stack with
  | case1 visited => simpa using ha
  | case2 visited c stack hc ih =>
    refine ih ?_
    rcases ha with ha | ha
    · exact Or.inl ha
    · rcases List.mem_cons.mp ha with rfl | ha
      · exact Or.inl hc
      · exact Or.inr ha
  | case3 visited c stack hc ih =>
    refine ih ?_
    rcases ha with ha | ha
    · exact Or.inl (List.mem_cons_of_mem _ ha)
    · rcases List.mem_cons.mp ha with rfl | ha
      · exact Or.inl List.mem_cons_self
      · exact Or.inr (List.mem_append_right _ ha)

/-- What the search visits anew has all its successors among what is visited. -/
theorem edge_mem_preorder (ha : a ∈ preorder edges visited stack) (hnew : a ∉ visited)
    (hab : Edge edges a b) : b ∈ preorder edges visited stack := by
  fun_induction preorder edges visited stack with
  | case1 visited => exact absurd (List.mem_reverse.mp ha) hnew
  | case2 visited c stack hc ih => exact ih ha hnew
  | case3 visited c stack hc ih =>
    by_cases hac : a = c
    · subst hac
      refine mem_preorder_of_mem (Or.inr (List.mem_append_left _ ?_))
      exact edge_iff_mem_successors.mp hab
    · exact ih ha (by simp [hac, hnew])

theorem exists_of_mem_preorder (hb : b ∈ preorder edges visited stack) :
    b ∈ visited ∨ ∃ a ∈ stack, ReflTransGen (Edge edges) a b := by
  fun_induction preorder edges visited stack with
  | case1 visited => exact Or.inl (List.mem_reverse.mp hb)
  | case2 visited c stack hc ih =>
    rcases ih hb with hv | ⟨a, ha, hpath⟩
    · exact Or.inl hv
    · exact Or.inr ⟨a, List.mem_cons_of_mem _ ha, hpath⟩
  | case3 visited c stack hc ih =>
    rcases ih hb with hv | ⟨a, ha, hpath⟩
    · rcases List.mem_cons.mp hv with rfl | hv
      · exact Or.inr ⟨b, List.mem_cons_self, .refl⟩
      · exact Or.inl hv
    · rcases List.mem_append.mp ha with ha | ha
      · exact Or.inr ⟨c, List.mem_cons_self, hpath.head (edge_iff_mem_successors.mpr ha)⟩
      · exact Or.inr ⟨a, List.mem_cons_of_mem _ ha, hpath⟩

theorem mem_preorder_iff :
    b ∈ preorder edges [] stack ↔ ∃ a ∈ stack, ReflTransGen (Edge edges) a b := by
  constructor
  · intro hb
    exact (exists_of_mem_preorder hb).resolve_left (by simp)
  · rintro ⟨a, ha, hpath⟩
    induction hpath with
    | refl => exact mem_preorder_of_mem (Or.inr ha)
    | tail _ hedge ih => exact edge_mem_preorder ih (by simp) hedge

/-- One or more edges lead to what is reachable. -/
theorem mem_reachable_iff : b ∈ reachable edges a ↔ TransGen (Edge edges) a b := by
  rw [reachable, mem_preorder_iff, TransGen.head'_iff]
  simp only [edge_iff_mem_successors]

end TokenAudit.Graph
