import Mathlib.Data.List.Induction
import Mathlib.Data.List.Nodup

/-! First occurrences in lists, look-up by key, and parts of lists picked out by position or
property. -/

namespace TokenAudit

variable {α : Type} [BEq α] [LawfulBEq α]

theorem eraseDups_concat (l : List α) (a : α) :
    (l ++ [a]).eraseDups = if a ∈ l then l.eraseDups else l.eraseDups ++ [a] := by
  rw [List.eraseDups_append]
  by_cases ha : a ∈ l <;> simp [List.removeAll, ha, List.eraseDups_cons]

theorem nodup_eraseDups (l : List α) : l.eraseDups.Nodup := by
  induction l using List.reverseRecOn with
  | nil => exact List.nodup_nil
  | append_singleton l a ih =>
    rw [eraseDups_concat]
    split_ifs with ha
    · exact ih
    · rw [List.nodup_append]
      refine ⟨ih, by simp, ?_⟩
      rintro b hb c hc rfl
      exact ha (List.mem_singleton.mp hc ▸ List.mem_eraseDups.mp hb)

/-- In an ascending list the first element with a property is the least. -/
theorem find?_eq_some_iff_of_pairwise {l : List Nat} (hl : l.Pairwise (· < ·)) {p : Nat → Bool}
    {i : Nat} : l.find? p = some i ↔ i ∈ l ∧ p i = true ∧ ∀ j < i, j ∈ l → p j = false := by
  have hleast : ∀ i, l.find? p = some i → i ∈ l ∧ p i = true ∧ ∀ j < i, j ∈ l → p j = false := by
    intro i hi
    obtain ⟨hp, before, after, rfl, hbefore⟩ := List.find?_eq_some_iff_append.mp hi
    refine ⟨by simp, hp, fun j hlt hj => ?_⟩
    rw [List.pairwise_append, List.pairwise_cons] at hl
    simp only [List.mem_append, List.mem_cons] at hj
    rcases hj with hj | rfl | hj
    · simpa using hbefore j hj
    · omega
    · have := hl.2.1.1 j hj
      omega
  refine ⟨hleast i, fun ⟨hi, hp, hfirst⟩ => ?_⟩
  cases hf : l.find? p with
  | none => exact absurd hp (List.find?_eq_none.mp hf i hi)
  | some k =>
    obtain ⟨hk, hpk, hfirst'⟩ := hleast k hf
    have hik : ¬ i < k := fun h => by simp [hfirst' i h hi] at hp
    have hki : ¬ k < i := fun h => by simp [hfirst k h hk] at hpk
    exact congrArg some (by omega)

theorem mem_of_lookup {β : Type} {l : List (α × β)} {k : α} {v : β} (h : l.lookup k = some v) :
    (k, v) ∈ l := by
  obtain ⟨before, after, rfl, -⟩ := List.lookup_eq_some_iff.mp h
  simp

theorem lookup_eq_some_iff_mem {β : Type} {l : List (α × β)}
    (hl : (l.map (·.1)).Nodup) {k : α} {v : β} : l.lookup k = some v ↔ (k, v) ∈ l := by
  induction l with
  | nil => simp
  | cons p l ih =>
    obtain ⟨k', v'⟩ := p
    rw [List.map_cons, List.nodup_cons] at hl
    have hrest := ih hl.2
    by_cases hk : k = k'
    · subst hk
      have hfresh : (k, v) ∉ l := fun h => hl.1 (List.mem_map.mpr ⟨_, h, rfl⟩)
      simp [hfresh, eq_comm]
    · have hk' : (k == k') = false := by simpa using hk
      rw [List.lookup_cons, hk', List.mem_cons]
      simp [hrest, hk]

theorem flatMap_zipIdx_ite {α β : Type} (l : List α) (k i : Nat) (g : α → List β) :
    ((l.zipIdx k).flatMap fun (a, j) => if j = k + i then g a else []) =
      (l[i]?.map g).getD [] := by
  induction l generalizing k i with
  | nil => simp
  | cons a l ih =>
    simp only [List.zipIdx_cons, List.flatMap_cons]
    cases i with
    | zero =>
      have hrest : ((l.zipIdx (k + 1)).flatMap fun (b, j) => if j = k then g b else []) = [] := by
        rw [List.flatMap_eq_nil_iff]
        rintro ⟨b, j⟩ hb
        have hj : k + 1 ≤ j := (List.mem_zipIdx hb).1
        exact if_neg (by omega)
      simp [hrest]
    | succ i =>
      have hrest := ih (k + 1) i
      rw [Nat.add_right_comm] at hrest
      simpa [Nat.add_assoc] using hrest

theorem flatMap_filter {α β : Type} (l : List α) (p : α → Bool) (g : α → List β) :
    (l.filter p).flatMap g = l.flatMap fun a => if p a then g a else [] := by
  induction l with
  | nil => rfl
  | cons a l ih => by_cases h : p a = true <;> simp [h, ih]

theorem eq_map_of_forall₂ {α β : Type} {g : α → β} {as : List α} {bs : List β}
    (h : List.Forall₂ (fun a b => b = g a) as bs) : bs = as.map g := by
  induction h with
  | nil => rfl
  | cons hab _ ih => rw [hab, ih, List.map_cons]

section Forall₂

variable {α β : Type} {R : α → β → Prop} {as : List α} {bs : List β}

theorem getElem?_of_forall₂ (h : List.Forall₂ R as bs) (i : Nat) :
    (as[i]? = none ∧ bs[i]? = none) ∨ ∃ a b, as[i]? = some a ∧ bs[i]? = some b ∧ R a b := by
  induction h generalizing i with
  | nil => simp
  | @cons a b as bs hab _ ih =>
    cases i with
    | zero => exact Or.inr ⟨a, b, rfl, rfl, hab⟩
    | succ i => simpa using ih i

theorem exists_of_forall₂ (h : List.Forall₂ R as bs) {a : α} (ha : a ∈ as) : ∃ b ∈ bs, R a b := by
  obtain ⟨i, hi⟩ := List.mem_iff_getElem?.mp ha
  rcases getElem?_of_forall₂ h i with ⟨hnone, -⟩ | ⟨a', b, ha', hb, hab⟩
  · cases hi.symm.trans hnone
  · obtain rfl : a = a' := Option.some.inj (hi.symm.trans ha')
    exact ⟨b, List.mem_of_getElem? hb, hab⟩

/-- The positions of lists that agree element by element agree too. -/
theorem forall₂_zipIdx (h : List.Forall₂ R as bs) (k : Nat) :
    List.Forall₂ (fun p q => R p.1 q.1 ∧ p.2 = q.2) (as.zipIdx k) (bs.zipIdx k) := by
  induction h generalizing k with
  | nil => exact .nil
  | cons hab _ ih => exact .cons ⟨hab, rfl⟩ (ih (k + 1))

theorem filterMap_sublist_of_forall₂ {γ : Type} {f : α → Option γ} {g : β → Option γ}
    (h : List.Forall₂ R as bs) (hfg : ∀ a b c, R a b → g b = some c → f a = some c) :
    (bs.filterMap g).Sublist (as.filterMap f) := by
  induction h with
  | nil => exact List.Sublist.refl _
  | @cons a b as bs hab _ ih =>
    cases hg : g b with
    | none =>
      rw [List.filterMap_cons_none hg]
      cases hf : f a with
      | none => rwa [List.filterMap_cons_none hf]
      | some c =>
        rw [List.filterMap_cons_some hf]
        exact ih.cons c
    | some c =>
      rw [List.filterMap_cons_some hg, List.filterMap_cons_some (hfg a b c hab hg)]
      exact ih.cons_cons c

end Forall₂

end TokenAudit
