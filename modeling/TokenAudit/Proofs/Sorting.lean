import Mathlib.Data.List.Pairwise

/-! Lists sorted by size, the largest elements first: a search meets the largest element with a
property, and of several the one that stood first before. -/

namespace TokenAudit

variable {α : Type} {size : α → Nat} {p : α → Bool} {l : List α} {a b : α}

/-- `a` may stand in front of `b` if it is no smaller. -/
def largerFirst (size : α → Nat) (a b : α) : Bool := decide (size b ≤ size a)

/-- `a` is the first of the largest elements of `l` that have the property. -/
structure IsFirstLargest (size : α → Nat) (p : α → Bool) (l : List α) (a : α) : Prop where
  holds : p a = true
  largest : ∀ b ∈ l, p b = true → size b ≤ size a
  first : ∃ before after, l = before ++ a :: after ∧ ∀ b ∈ before, p b = true → size b ≠ size a

theorem largerFirst_trans (a b c : α) (hab : largerFirst size a b = true)
    (hbc : largerFirst size b c = true) : largerFirst size a c = true := by
  unfold largerFirst at *
  rw [decide_eq_true_eq] at *
  omega

theorem largerFirst_total (a b : α) : (largerFirst size a b || largerFirst size b a) = true := by
  unfold largerFirst
  rw [Bool.or_eq_true, decide_eq_true_eq, decide_eq_true_eq]
  omega

theorem pairwise_largerFirst (l : List α) :
    (l.mergeSort (largerFirst size)).Pairwise fun a b => size b ≤ size a := by
  have hsorted : (l.mergeSort (largerFirst size)).Pairwise
      fun a b => largerFirst size a b = true :=
    List.pairwise_mergeSort largerFirst_trans largerFirst_total l
  exact hsorted.imp fun h => of_decide_eq_true h

/-- Elements of one size stay in their order when a list is sorted by size. -/
theorem filter_mergeSort_largerFirst {q : α → Bool} {n : Nat} (hq : ∀ a, q a = true → size a = n)
    (l : List α) : (l.mergeSort (largerFirst size)).filter q = l.filter q := by
  have hsize : ∀ a ∈ l.filter q, size a = n := fun a ha => hq a (List.mem_filter.mp ha).2
  have hpairwise : (l.filter q).Pairwise fun a b => largerFirst size a b = true := by
    refine List.pairwise_of_forall_mem_list fun a ha b hb => ?_
    rw [largerFirst, hsize a ha, hsize b hb]
    exact decide_eq_true (Nat.le_refl n)
  have hsublist : (l.filter q).Sublist (l.mergeSort (largerFirst size)) :=
    List.sublist_mergeSort largerFirst_trans largerFirst_total hpairwise List.filter_sublist
  have hfiltered := hsublist.filter q
  rw [List.filter_filter, List.filter_congr fun a _ => Bool.and_self (q a)] at hfiltered
  have hlength := ((List.mergeSort_perm l (largerFirst size)).filter q).length_eq
  exact (hfiltered.eq_of_length hlength.symm).symm

theorem IsFirstLargest.filter_eq (h : IsFirstLargest size p l a) :
    ∃ rest, (l.filter fun b => p b && size b == size a) = a :: rest := by
  obtain ⟨before, after, rfl, hbefore⟩ := h.first
  refine ⟨_, List.filter_eq_cons_iff.mpr ⟨before, after, rfl, fun b hb hkept => ?_, ?_, rfl⟩⟩
  · rw [Bool.and_eq_true, beq_iff_eq] at hkept
    exact hbefore b hb hkept.1 hkept.2
  · simp [h.holds]

theorem IsFirstLargest.mem (h : IsFirstLargest size p l a) : a ∈ l := by
  obtain ⟨before, after, rfl, -⟩ := h.first
  simp

theorem IsFirstLargest.unique (ha : IsFirstLargest size p l a) (hb : IsFirstLargest size p l b) :
    a = b := by
  have hle := hb.largest a ha.mem ha.holds
  have hge := ha.largest b hb.mem hb.holds
  have hsize : size a = size b := by omega
  obtain ⟨rest, hrest⟩ := ha.filter_eq
  obtain ⟨rest', hrest'⟩ := hb.filter_eq
  rw [hsize] at hrest
  exact (List.cons.inj (hrest.symm.trans hrest')).1

theorem isFirstLargest_of_find? (h : (l.mergeSort (largerFirst size)).find? p = some a) :
    IsFirstLargest size p l a := by
  obtain ⟨hp, before, after, hsort, hbefore⟩ := List.find?_eq_some_iff_append.mp h
  have hsorted : (l.mergeSort (largerFirst size)).Pairwise fun a b => size b ≤ size a :=
    pairwise_largerFirst l
  rw [hsort, List.pairwise_append, List.pairwise_cons] at hsorted
  have hnone : ∀ b ∈ before, p b = false := fun b hb => by simpa using hbefore b hb
  have hlargest : ∀ b ∈ l, p b = true → size b ≤ size a := by
    intro b hb hpb
    have hmem : b ∈ before ++ a :: after := hsort ▸ List.mem_mergeSort.mpr hb
    rcases List.mem_append.mp hmem with hb | hb
    · cases (hnone b hb).symm.trans hpb
    · rcases List.mem_cons.mp hb with rfl | hb
      · exact Nat.le_refl _
      · exact hsorted.2.1.1 b hb
  have hequal : (l.filter fun b => p b && size b == size a) =
      (before ++ a :: after).filter fun b => p b && size b == size a := by
    rw [← hsort]
    refine (filter_mergeSort_largerFirst (n := size a) (fun b hb => ?_) l).symm
    exact beq_iff_eq.mp (Bool.and_eq_true_iff.mp hb).2
  have hskip : (before.filter fun b => p b && size b == size a) = [] :=
    List.filter_eq_nil_iff.mpr fun b hb => by simp [hnone b hb]
  rw [List.filter_append, hskip, List.nil_append, List.filter_cons_of_pos (by simp [hp])] at hequal
  obtain ⟨front, back, hl, hfront, -, -⟩ := List.filter_eq_cons_iff.mp hequal
  refine ⟨hp, hlargest, front, back, hl, fun b hb hpb hsize => hfront b hb ?_⟩
  simp [hpb, hsize]

/-- In a list sorted by size the first element with a property is the first of the largest. -/
theorem find?_mergeSort_eq_some_iff :
    (l.mergeSort (largerFirst size)).find? p = some a ↔ IsFirstLargest size p l a := by
  refine ⟨isFirstLargest_of_find?, fun h => ?_⟩
  cases hfind : (l.mergeSort (largerFirst size)).find? p with
  | none =>
    have hmem : a ∈ l.mergeSort (largerFirst size) := List.mem_mergeSort.mpr h.mem
    exact absurd h.holds (List.find?_eq_none.mp hfind a hmem)
  | some b => rw [(isFirstLargest_of_find? hfind).unique h]

end TokenAudit
