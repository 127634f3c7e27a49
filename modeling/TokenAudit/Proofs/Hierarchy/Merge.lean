import Mathlib.Data.List.Nodup
import TokenAudit.Hierarchy.Merge
import TokenAudit.Proofs.Lists

/-! Rows can be merged exactly if some order agrees with all of them, and the merged order is then
such an order of the names in the rows. -/

namespace TokenAudit.Merge

variable {α : Type} [DecidableEq α]

/-- An order without repetitions that keeps the order of every row. -/
structure Agrees (order : List α) (rows : List (List α)) : Prop where
  nodup : order.Nodup
  sublist : ∀ r ∈ rows, r.Sublist order

theorem isInTail_eq_false_iff {rows : List (List α)} {a : α} :
    isInTail rows a = false ↔ ∀ r ∈ rows, a ∉ r.tail := by
  simp [isInTail]

omit [DecidableEq α] in
theorem mem_heads_iff {rows : List (List α)} {a : α} :
    a ∈ heads rows ↔ ∃ r ∈ rows, r.head? = some a := by
  simp [heads]

theorem not_mem_tail_of_next? {rows : List (List α)} {a : α} (h : next? rows = some a) :
    ∀ r ∈ rows, a ∉ r.tail := by
  have ha := List.find?_some h
  exact isInTail_eq_false_iff.mp (by simpa using ha)

theorem mem_advance_iff {rows : List (List α)} {a : α} {s : List α} :
    s ∈ advance a rows ↔ ∃ r ∈ rows, (if r.head? = some a then r.tail else r) = s := by
  simp [advance]

/-- What is in no tail and has been taken from all heads is gone. -/
theorem not_mem_of_mem_advance {rows : List (List α)} {a : α} (h : next? rows = some a)
    {s : List α} (hs : s ∈ advance a rows) : a ∉ s := by
  obtain ⟨r, hr, rfl⟩ := mem_advance_iff.mp hs
  have ht := not_mem_tail_of_next? h r hr
  split_ifs with hh
  · exact ht
  · cases r with
    | nil => simp
    | cons b r =>
      have hb : b ≠ a := by simpa using hh
      simp only [List.tail_cons] at ht
      simp [ht, hb.symm]

theorem mem_flatten_advance {rows : List (List α)} {a b : α} (h : a ∈ heads rows) :
    b ∈ rows.flatten ↔ b = a ∨ b ∈ (advance a rows).flatten := by
  simp only [List.mem_flatten, mem_advance_iff]
  constructor
  · intro h
    obtain ⟨r, hr, hb⟩ := h
    by_cases hh : r.head? = some a
    · rw [← List.cons_head?_tail hh, List.mem_cons] at hb
      rcases hb with rfl | hb
      · exact Or.inl rfl
      · exact Or.inr ⟨r.tail, ⟨r, hr, if_pos hh⟩, hb⟩
    · exact Or.inr ⟨r, ⟨r, hr, if_neg hh⟩, hb⟩
  · intro h
    rcases h with rfl | ⟨s, ⟨r, hr, rfl⟩, hb⟩
    · obtain ⟨r, hr, hh⟩ := mem_heads_iff.mp h
      exact ⟨r, hr, List.mem_of_head? hh⟩
    · refine ⟨r, hr, ?_⟩
      split_ifs at hb with hh
      · exact List.mem_of_mem_tail hb
      · exact hb

theorem mem_merge? {rows : List (List α)} {out : List α} (h : merge? rows = some out) (b : α) :
    b ∈ out ↔ b ∈ rows.flatten := by
  fun_induction merge? rows generalizing out with
  | case1 rows he =>
    obtain rfl : [] = out := Option.some.inj h
    have hn : ∀ r ∈ rows, r = [] := by simpa using he
    simp only [List.not_mem_nil, List.mem_flatten, false_iff, not_exists, not_and]
    intro r hr
    simp [hn r hr]
  | case2 => cases h
  | case3 rows he a hn ih =>
    obtain ⟨rest, hr, rfl⟩ := Option.map_eq_some_iff.mp h
    rw [mem_flatten_advance (mem_heads_of_next? hn), List.mem_cons, ih hr]

theorem nodup_merge? {rows : List (List α)} {out : List α} (h : merge? rows = some out) :
    out.Nodup := by
  fun_induction merge? rows generalizing out with
  | case1 rows he =>
    obtain rfl : [] = out := Option.some.inj h
    exact List.nodup_nil
  | case2 => cases h
  | case3 rows he a hn ih =>
    obtain ⟨rest, hr, rfl⟩ := Option.map_eq_some_iff.mp h
    refine List.nodup_cons.mpr ⟨fun ha => ?_, ih hr⟩
    obtain ⟨s, hs, has⟩ := List.mem_flatten.mp ((mem_merge? hr a).mp ha)
    exact not_mem_of_mem_advance hn hs has

theorem sublist_merge? {rows : List (List α)} {out : List α} (h : merge? rows = some out) :
    ∀ r ∈ rows, r.Sublist out := by
  fun_induction merge? rows generalizing out with
  | case1 rows he =>
    intro r hr
    have hn : ∀ r ∈ rows, r = [] := by simpa using he
    rw [hn r hr]
    exact List.nil_sublist _
  | case2 => cases h
  | case3 rows he a hn ih =>
    obtain ⟨rest, hm, rfl⟩ := Option.map_eq_some_iff.mp h
    intro r hr
    have hs := ih hm _ (mem_advance_iff.mpr ⟨r, hr, rfl⟩)
    split_ifs at hs with hh
    · rw [← List.cons_head?_tail hh]
      exact hs.cons_cons a
    · exact hs.cons a

theorem agrees_merge? {rows : List (List α)} {out : List α} (h : merge? rows = some out) :
    Agrees out rows :=
  ⟨nodup_merge? h, sublist_merge? h⟩

theorem Agrees.advance {order : List α} {rows : List (List α)} (h : Agrees order rows) (a : α) :
    Agrees order (advance a rows) := by
  refine ⟨h.nodup, fun s hs => ?_⟩
  obtain ⟨r, hr, rfl⟩ := mem_advance_iff.mp hs
  split_ifs
  · exact (List.tail_sublist r).trans (h.sublist r hr)
  · exact h.sublist r hr

/-- The first name of an agreeing order that is in a row at all can be taken next. -/
theorem Agrees.next?_ne_none {order : List α} {rows : List (List α)} (h : Agrees order rows)
    (hne : rows.all List.isEmpty = false) : next? rows ≠ none := by
  obtain ⟨hd, hs⟩ := h
  induction order with
  | nil =>
    have : rows.all List.isEmpty = true := by
      simpa using fun r hr => List.sublist_nil.mp (hs r hr)
    simp [this] at hne
  | cons a order ih =>
    obtain ⟨ha, hd⟩ := List.nodup_cons.mp hd
    by_cases hm : ∃ r ∈ rows, a ∈ r
    · obtain ⟨r, hr, har⟩ := hm
      have hout : ∀ r ∈ rows, a ∉ r.tail := fun r hr hat =>
        ha ((hs r hr).tail.subset hat)
      have hhead : a ∈ heads rows := by
        refine mem_heads_iff.mpr ⟨r, hr, ?_⟩
        cases r with
        | nil => cases har
        | cons b r =>
          rcases List.mem_cons.mp har with rfl | har
          · rfl
          · exact absurd har (hout _ hr)
      intro hn
      have := List.find?_eq_none.mp hn a hhead
      simp [isInTail_eq_false_iff.mpr hout] at this
    · refine ih hd fun r hr => ?_
      cases hs r hr with
      | cons _ h => exact h
      | cons_cons _ h => exact absurd ⟨_, hr, List.mem_cons_self⟩ hm

theorem merge?_ne_none {order : List α} {rows : List (List α)} (h : Agrees order rows) :
    merge? rows ≠ none := by
  fun_induction merge? rows with
  | case1 => simp
  | case2 rows he hn => exact absurd hn (h.next?_ne_none (by simpa using he))
  | case3 rows he a hn ih => simpa using ih (h.advance a)

theorem mem_mergeOrFlatten {rows : List (List α)} {b : α} :
    b ∈ mergeOrFlatten rows ↔ b ∈ rows.flatten := by
  unfold mergeOrFlatten
  cases h : merge? rows with
  | none => exact List.mem_eraseDups
  | some out => exact mem_merge? h b

theorem nodup_mergeOrFlatten (rows : List (List α)) : (mergeOrFlatten rows).Nodup := by
  unfold mergeOrFlatten
  cases h : merge? rows with
  | none => exact nodup_eraseDups _
  | some out => exact nodup_merge? h

theorem agrees_mergeOrFlatten {rows : List (List α)} (h : ∃ order, Agrees order rows) :
    Agrees (mergeOrFlatten rows) rows := by
  obtain ⟨order, ho⟩ := h
  obtain ⟨out, hm⟩ := Option.ne_none_iff_exists'.mp (merge?_ne_none ho)
  simpa [mergeOrFlatten, hm] using agrees_merge? hm

theorem mergeOrFlatten_of_not_agrees {rows : List (List α)} (h : ¬ ∃ order, Agrees order rows) :
    mergeOrFlatten rows = rows.flatten.eraseDups := by
  cases hm : merge? rows with
  | none => simp [mergeOrFlatten, hm]
  | some out => exact absurd ⟨out, agrees_merge? hm⟩ h

/-- Round after round the names of `out` are taken from the rows, and `rest` is left of these. -/
inductive Picks : List (List α) → List α → List (List α) → Prop
  | start {rows} : Picks rows [] rows
  | pick {rows a out rest} (ha : next? rows = some a) (hr : Picks (advance a rows) out rest) :
      Picks rows (a :: out) rest

/-- Each round takes a name away, so there are no more rounds than names in the rows. -/
theorem Picks.length_le {rows rest : List (List α)} {out : List α} (h : Picks rows out rest) :
    out.length + rest.flatten.length ≤ rows.flatten.length := by
  induction h with
  | start => simp
  | @pick rows a out rest ha _ ih =>
    have hlt : (Merge.advance a rows).flatten.length < rows.flatten.length :=
      length_advance_lt (mem_heads_of_next? ha)
    rw [List.length_cons]
    omega

/-- The rounds go on until nothing is left of the rows. -/
theorem picks_of_merge? {rows : List (List α)} {out : List α} (h : merge? rows = some out) :
    ∃ rest, Picks rows out rest ∧ rest.flatten = [] := by
  fun_induction merge? rows generalizing out with
  | case1 rows he =>
    obtain rfl : [] = out := Option.some.inj h
    have hn : ∀ r ∈ rows, r = [] := by simpa using he
    exact ⟨rows, .start, List.flatten_eq_nil_iff.mpr hn⟩
  | case2 => cases h
  | case3 rows he a hn ih =>
    obtain ⟨names, hm, rfl⟩ := Option.map_eq_some_iff.mp h
    obtain ⟨rest, hp, hrest⟩ := ih hm
    exact ⟨rest, .pick hn hp, hrest⟩

/-- Where there is no merged order, the rounds come to rows that are not empty and of which no
name can be taken. -/
theorem picks_of_merge?_eq_none {rows : List (List α)} (h : merge? rows = none) :
    ∃ out rest, Picks rows out rest ∧ rest.flatten ≠ [] ∧ next? rest = none := by
  fun_induction merge? rows with
  | case1 => cases h
  | case2 rows he hn =>
    refine ⟨[], rows, .start, fun hrows => he ?_, hn⟩
    simpa using List.flatten_eq_nil_iff.mp hrows
  | case3 rows he a hn ih =>
    obtain ⟨out, rest, hp, hrest⟩ := ih (Option.map_eq_none_iff.mp h)
    exact ⟨a :: out, rest, .pick hn hp, hrest⟩

/-- The rounds come to an end, with a merged order or in rows of which no name can be taken. There
is a merged order exactly if some order without repetitions keeps that of every row; it is such an
order then, of the names in the rows and of no others. -/
theorem exists_merge?_iff_agrees (rows : List (List α)) :
    (∀ out rest, Picks rows out rest → out.length ≤ rows.flatten.length) ∧
    ((∃ out, merge? rows = some out) ↔
      ∃ order : List α, order.Nodup ∧ ∀ r ∈ rows, r.Sublist order) ∧
    (∀ out, merge? rows = some out →
      (∃ rest, Picks rows out rest ∧ rest.flatten = []) ∧ out.Nodup ∧
        (∀ a, a ∈ out ↔ ∃ r ∈ rows, a ∈ r) ∧ ∀ r ∈ rows, r.Sublist out) ∧
    (merge? rows = none →
      ∃ out rest, Picks rows out rest ∧ rest.flatten ≠ [] ∧ next? rest = none) := by
  refine ⟨fun out rest hp => ?_, ⟨fun h => ?_, fun h => ?_⟩, fun out hm => ?_,
    picks_of_merge?_eq_none⟩
  · have hlength := hp.length_le
    omega
  · obtain ⟨out, hm⟩ := h
    exact ⟨out, nodup_merge? hm, sublist_merge? hm⟩
  · obtain ⟨order, hnodup, hsublist⟩ := h
    have hagrees : Agrees order rows := ⟨hnodup, hsublist⟩
    exact Option.ne_none_iff_exists'.mp (merge?_ne_none hagrees)
  · refine ⟨picks_of_merge? hm, nodup_merge? hm, fun a => ?_, sublist_merge? hm⟩
    rw [mem_merge? hm, List.mem_flatten]

end TokenAudit.Merge
