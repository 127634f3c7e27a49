/-!
Merging rows of names into one order. The next name is always the first head of a row that is in
no row's tail.
-/

namespace TokenAudit.Merge

variable {α : Type} [DecidableEq α]

def heads (rows : List (List α)) : List α := rows.filterMap List.head?

def isInTail (rows : List (List α)) (a : α) : Bool := rows.any fun r => r.tail.contains a

def next? (rows : List (List α)) : Option α := (heads rows).find? (!isInTail rows ·)

/-- Removes `a` from the head of every row that starts with it. -/
def advance (a : α) (rows : List (List α)) : List (List α) :=
  rows.map fun r => if r.head? = some a then r.tail else r

theorem length_advance_le (a : α) (rows : List (List α)) :
    (advance a rows).flatten.length ≤ rows.flatten.length := by
  induction rows with
  | nil => simp [advance]
  | cons r rs ih =>
    simp only [advance, List.map_cons, List.flatten_cons, List.length_append] at ih ⊢
    split
    · simp only [List.length_tail]; omega
    · omega

theorem length_advance_lt {a : α} {rows : List (List α)} (h : a ∈ heads rows) :
    (advance a rows).flatten.length < rows.flatten.length := by
  induction rows with
  | nil => simp [heads] at h
  | cons r rs ih =>
    have hle := length_advance_le a rs
    simp only [advance, List.map_cons, List.flatten_cons, List.length_append] at hle ⊢
    by_cases hr : r.head? = some a
    · obtain ⟨t, rfl⟩ := List.head?_eq_some_iff.1 hr
      simp only [List.head?_cons, ↓reduceIte, List.tail_cons, List.length_cons]
      omega
    · have hm : a ∈ heads rs := by
        simp only [heads, List.mem_filterMap, List.mem_cons] at h ⊢
        obtain ⟨s, rfl | hs, hh⟩ := h
        · exact absurd hh hr
        · exact ⟨s, hs, hh⟩
      have := ih hm
      simp only [advance] at this
      rw [if_neg hr]
      omega

theorem mem_heads_of_next? {a : α} {rows : List (List α)} (h : next? rows = some a) :
    a ∈ heads rows := List.mem_of_find?_eq_some h

/-- The merged order, or nothing if at some point every head is in a tail. -/
def merge? (rows : List (List α)) : Option (List α) :=
  if rows.all List.isEmpty then some []
  else
    match _h : next? rows with
    | none => none
    | some a => (merge? (advance a rows)).map (a :: ·)
termination_by rows.flatten.length
decreasing_by exact length_advance_lt (mem_heads_of_next? ‹_›)

/-- The merged order or, where there is none, the rows one after another, each name at its first
place. -/
def mergeOrFlatten (rows : List (List α)) : List α :=
  (merge? rows).getD rows.flatten.eraseDups

end TokenAudit.Merge
