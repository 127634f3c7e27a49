import Mathlib.Data.List.Nodup

/-! Lists with the same elements in another order: which positions of the two belong together, and
what does not depend on the order. -/

namespace TokenAudit

variable {α β : Type} {l l' : List α} {i i' j j' k : Nat} {a : α}

/-- One element stands at position `i` of `l` and at position `j` of `l'`. -/
def SameAt (l l' : List α) (i j : Nat) : Prop := ∃ a, l[i]? = some a ∧ l'[j]? = some a

theorem SameAt.symm (h : SameAt l l' i j) : SameAt l' l j i := by
  obtain ⟨a, hi, hj⟩ := h
  exact ⟨a, hj, hi⟩

theorem SameAt.lt_length (h : SameAt l l' i j) : i < l.length := by
  obtain ⟨a, hi, -⟩ := h
  exact (List.getElem?_eq_some_iff.mp hi).1

theorem SameAt.getElem?_eq (h : SameAt l l' i j) : l[i]? = l'[j]? := by
  obtain ⟨a, hi, hj⟩ := h
  rw [hi, hj]

theorem exists_sameAt (hp : l'.Perm l) (hi : i < l.length) : ∃ j, SameAt l l' i j := by
  have hmem : l[i] ∈ l' := hp.mem_iff.mpr (List.getElem_mem hi)
  obtain ⟨j, hj⟩ := List.mem_iff_getElem?.mp hmem
  exact ⟨j, l[i], List.getElem?_eq_getElem hi, hj⟩

/-- Where no element stands twice, a position belongs to one position only. -/
theorem SameAt.inj (hl' : l'.Nodup) (h : SameAt l l' i j) (h' : SameAt l l' i k) : j = k := by
  rw [← List.getElem?_inj h.symm.lt_length hl', ← h.getElem?_eq, ← h'.getElem?_eq]

theorem SameAt.eq_iff (hl : l.Nodup) (hl' : l'.Nodup) (h : SameAt l l' i i')
    (h' : SameAt l l' j j') : i = j ↔ i' = j' := by
  constructor
  · rintro rfl
    exact h.inj hl' h'
  · rintro rfl
    exact h.symm.inj hl h'.symm

theorem zipIdx_eq_map_idxOf [BEq α] [LawfulBEq α] (hl : l.Nodup) :
    l.zipIdx = l.map fun a => (a, l.idxOf a) := by
  refine List.ext_getElem (by simp) fun i hi hi' => ?_
  have hlt : i < l.length := by simpa using hi
  simp [hl.idxOf_getElem i hlt]

/-- What is made of each element and its position has only its order changed, if the positions
that belong together give the same. -/
theorem filterMap_zipIdx_perm {f g : α × Nat → Option β} (hp : l'.Perm l) (hl : l.Nodup)
    (hfg : ∀ a i j, l[i]? = some a → l'[j]? = some a → g (a, j) = f (a, i)) :
    (l'.zipIdx.filterMap g).Perm (l.zipIdx.filterMap f) := by
  classical
  have hl' : l'.Nodup := hp.nodup_iff.mpr hl
  rw [zipIdx_eq_map_idxOf hl, zipIdx_eq_map_idxOf hl', List.filterMap_map, List.filterMap_map]
  have hsame : l'.filterMap (g ∘ fun a => (a, l'.idxOf a)) =
      l'.filterMap (f ∘ fun a => (a, l.idxOf a)) := by
    refine List.filterMap_congr fun a ha => ?_
    have hi : l[l.idxOf a]? = some a := List.getElem?_idxOf (hp.mem_iff.mp ha)
    have hj : l'[l'.idxOf a]? = some a := List.getElem?_idxOf ha
    exact hfg a _ _ hi hj
  rw [hsame]
  exact hp.filterMap _

/-- Sorting lists with the same elements gives the same list, if no two of them are at the same
place in the order. -/
theorem mergeSort_eq_of_perm {le : α → α → Bool}
    (htrans : ∀ a b c, le a b = true → le b c = true → le a c = true)
    (htotal : ∀ a b, (le a b || le b a) = true)
    (hanti : ∀ a ∈ l, ∀ b ∈ l, le a b = true → le b a = true → a = b) (hp : l'.Perm l) :
    l'.mergeSort le = l.mergeSort le := by
  have hsort : (l'.mergeSort le).Perm (l.mergeSort le) :=
    (List.mergeSort_perm l' le).trans (hp.trans (List.mergeSort_perm l le).symm)
  refine hsort.eq_of_pairwise (fun a b ha hb => ?_) (List.pairwise_mergeSort htrans htotal l')
    (List.pairwise_mergeSort htrans htotal l)
  have ha' : a ∈ l := hp.mem_iff.mp (List.mem_mergeSort.mp ha)
  have hb' : b ∈ l := List.mem_mergeSort.mp hb
  exact hanti a ha' b hb'

end TokenAudit
