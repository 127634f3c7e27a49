/-!
Search in rounds, in a graph whose vertices are loaded once they are met. Each round loads all
vertices that the round before has met for the first time.
-/

namespace TokenAudit.Graph

variable {α β : Type} [DecidableEq α]

/-- The vertices among `as` that have not been seen, each at its first place. -/
def discover (seen : List α) : List α → List α
  | [] => []
  | a :: as => if a ∈ seen then discover seen as else a :: discover (a :: seen) as

theorem mem_discover_iff {a : α} {seen as : List α} :
    a ∈ discover seen as ↔ a ∈ as ∧ a ∉ seen := by
  induction as generalizing seen with
  | nil => simp [discover]
  | cons c as ih =>
    rw [discover]
    split
    · next hc =>
      rw [ih, List.mem_cons]
      constructor
      · rintro ⟨ha, hs⟩
        exact ⟨Or.inr ha, hs⟩
      · rintro ⟨rfl | ha, hs⟩
        · exact absurd hc hs
        · exact ⟨ha, hs⟩
    · next hc =>
      rw [List.mem_cons, ih, List.mem_cons, List.mem_cons]
      constructor
      · rintro (rfl | ⟨ha, hs⟩)
        · exact ⟨Or.inl rfl, hc⟩
        · exact ⟨Or.inr ha, fun h => hs (Or.inr h)⟩
      · rintro ⟨rfl | ha, hs⟩
        · exact Or.inl rfl
        · by_cases hac : a = c
          · exact Or.inl hac
          · exact Or.inr ⟨ha, fun h => h.elim hac hs⟩

theorem length_unseen_lt {a : α} {vertices seen met : List α} (ha : a ∈ met)
    (hvertex : a ∈ vertices) (hseen : a ∉ seen) :
    (vertices.filter (· ∉ met ++ seen)).length < (vertices.filter (· ∉ seen)).length := by
  have hfilter : vertices.filter (· ∉ met ++ seen) =
      (vertices.filter (· ∉ seen)).filter (· ∉ met) := by
    rw [List.filter_filter]
    refine List.filter_congr fun b _ => ?_
    simp
  rw [hfilter, List.length_filter_lt_length_iff_exists]
  exact ⟨a, List.mem_filter.mpr ⟨hvertex, by simpa using hseen⟩, by simpa using ha⟩

/-- The vertices of a list that can be loaded, with what is loaded for them. -/
def loadAll (load : α → Option β) (as : List α) : List (α × β) :=
  as.filterMap fun a => (load a).map fun b => (a, b)

/-- All vertices loaded, from those of `frontier` on, in the order in which they were met.
Vertices that cannot be loaded lead nowhere, and none but one of `vertices` is met. -/
def rounds (load : α → Option β) (next : β → List α) (vertices seen frontier : List α) :
    List (α × β) :=
  let loaded := loadAll load frontier
  let met := discover seen ((loaded.flatMap fun p => next p.2).filter (· ∈ vertices))
  if met.isEmpty then loaded else loaded ++ rounds load next vertices (met ++ seen) met
termination_by (vertices.filter (· ∉ seen)).length
decreasing_by
  obtain ⟨a, ha⟩ := List.exists_mem_of_ne_nil met (by simpa using ‹¬met.isEmpty = true›)
  obtain ⟨htarget, hseen⟩ := mem_discover_iff.mp ha
  have hvertex : a ∈ vertices := by simpa using (List.mem_filter.mp htarget).2
  exact length_unseen_lt ha hvertex hseen

end TokenAudit.Graph
