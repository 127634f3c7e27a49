import TokenAudit.Graph.Preorder
import TokenAudit.Proofs.Lists

/-! The search by a stack finds the vertices in the order of the recursive search, and repeated
successors do not change that order. -/

namespace TokenAudit.Graph

variable {α : Type} [DecidableEq α] {next : α → List α → Prop}

/-- Recursive depth-first search. The vertices of `roots` are taken in turn: one that has not been
seen is found, and then all that its successors lead to. `next a bs` says that `bs` are the
successors of `a`, in order. -/
inductive Search (next : α → List α → Prop) : List α → List α → List α → Prop
  | done {seen} : Search next seen [] []
  | skip {seen a roots found} (ha : a ∈ seen) (hr : Search next seen roots found) :
      Search next seen (a :: roots) found
  | visit {seen a bs roots below found} (ha : a ∉ seen) (hn : next a bs)
      (hb : Search next (a :: seen) bs below)
      (hr : Search next (below.reverse ++ a :: seen) roots found) :
      Search next seen (a :: roots) (a :: below ++ found)

namespace Search

omit [DecidableEq α]

theorem append {seen as bs found found' : List α} (ha : Search next seen as found)
    (hb : Search next (found.reverse ++ seen) bs found') :
    Search next seen (as ++ bs) (found ++ found') := by
  induction ha with
  | done => exact hb
  | skip h _ ih => exact .skip h (ih hb)
  | @visit seen a cs roots below found h hn hc _ _ ih =>
    have hrest := ih (by simpa using hb)
    simpa using Search.visit h hn hc hrest

theorem of_append {seen as bs found : List α} (h : Search next seen (as ++ bs) found) :
    ∃ fst snd, found = fst ++ snd ∧ Search next seen as fst ∧
      Search next (fst.reverse ++ seen) bs snd := by
  induction as generalizing seen found with
  | nil => exact ⟨[], found, rfl, .done, h⟩
  | cons a as ih =>
    cases h with
    | skip ha hr =>
      obtain ⟨fst, snd, rfl, hf, hs⟩ := ih hr
      exact ⟨fst, snd, rfl, .skip ha hf, hs⟩
    | @visit _ _ _ _ below found ha hn hb hr =>
      obtain ⟨fst, snd, rfl, hf, hs⟩ := ih hr
      refine ⟨a :: below ++ fst, snd, by simp, .visit ha hn hb hf, ?_⟩
      simpa using hs

theorem mem_of_mem_roots {seen roots found : List α} (h : Search next seen roots found) {a : α}
    (ha : a ∈ roots) : a ∈ found ∨ a ∈ seen := by
  induction h with
  | done => cases ha
  | skip hs _ ih =>
    rcases List.mem_cons.mp ha with rfl | ha
    · exact Or.inr hs
    · exact ih ha
  | @visit seen b bs roots below found _ _ _ _ _ ih =>
    rcases List.mem_cons.mp ha with rfl | ha
    · exact Or.inl (by simp)
    · rcases ih ha with h | h
      · exact Or.inl (by simp [h])
      · simp only [List.mem_append, List.mem_reverse, List.mem_cons] at h ⊢
        tauto

/-- Vertices with one list of successors each are found in one order only. -/
theorem unique (hnext : ∀ a bs bs', next a bs → next a bs' → bs = bs')
    {seen roots found found' : List α} (h : Search next seen roots found)
    (h' : Search next seen roots found') : found = found' := by
  induction h generalizing found' with
  | done =>
    cases h'
    rfl
  | skip ha _ ih =>
    cases h' with
    | skip _ hr => exact ih hr
    | visit ha' => exact absurd ha ha'
  | visit ha hn _ _ ihb ihr =>
    cases h' with
    | skip ha' => exact absurd ha' ha
    | visit _ hn' hb' hr' =>
      obtain rfl := hnext _ _ _ hn hn'
      obtain rfl := ihb hb'
      rw [ihr hr']

end Search

/-- A root that stands there a second time is not found again. -/
theorem Search.of_eraseDups {seen roots found : List α}
    (h : Search next seen roots.eraseDups found) : Search next seen roots found := by
  induction roots using List.reverseRecOn generalizing found with
  | nil => exact h
  | append_singleton roots a ih =>
    rw [eraseDups_concat] at h
    split_ifs at h with ha
    · have hroots := ih h
      have hseen : a ∈ found.reverse ++ seen := by
        simpa using hroots.mem_of_mem_roots ha
      simpa using hroots.append (.skip hseen .done)
    · obtain ⟨fst, snd, rfl, hf, hs⟩ := h.of_append
      exact (ih hf).append hs

theorem Search.of_eraseDups_next {next' : α → List α → Prop}
    (hnext : ∀ a bs, next a bs → ∃ bs', next' a bs' ∧ bs = bs'.eraseDups)
    {seen roots found : List α} (h : Search next seen roots found) :
    Search next' seen roots found := by
  induction h with
  | done => exact .done
  | skip ha _ ih => exact .skip ha ih
  | visit ha hn _ _ ihb ihr =>
    obtain ⟨bs', hn', rfl⟩ := hnext _ _ hn
    exact .visit ha hn' ihb.of_eraseDups ihr

theorem search_preorder (edges : List (α × α)) (visited stack : List α) :
    ∃ found, Search (fun a bs => bs = successors edges a) visited stack found ∧
      preorder edges visited stack = visited.reverse ++ found := by
  fun_induction preorder edges visited stack with
  | case1 visited => exact ⟨[], .done, by simp⟩
  | case2 visited a stack ha ih =>
    obtain ⟨found, hs, hp⟩ := ih
    exact ⟨found, .skip ha hs, hp⟩
  | case3 visited a stack ha ih =>
    obtain ⟨found, hs, hp⟩ := ih
    obtain ⟨below, rest, rfl, hb, hr⟩ := hs.of_append
    exact ⟨a :: below ++ rest, .visit ha rfl hb hr, by simpa using hp⟩

theorem successors_append (edges edges' : List (α × α)) (a : α) :
    successors (edges ++ edges') a = successors edges a ++ successors edges' a := by
  simp [successors]

theorem successors_flatMap {β : Type} (l : List β) (f : β → List (α × α)) (a : α) :
    successors (l.flatMap f) a = l.flatMap fun b => successors (f b) a := by
  induction l with
  | nil => rfl
  | cons b l ih => simp [successors_append, ih]

theorem successors_map_mk (s a : α) (ts : List α) :
    successors (ts.map fun t => (s, t)) a = if a = s then ts else [] := by
  have hstart : ∀ e ∈ ts.map fun t => (s, t), e.1 = s := by
    intro e he
    obtain ⟨t, -, rfl⟩ := List.mem_map.mp he
    rfl
  unfold successors
  split_ifs with h
  · subst h
    rw [List.filter_eq_self.mpr fun e he => decide_eq_true (hstart e he), List.map_map]
    exact List.map_id ts
  · have hnone : ∀ e ∈ ts.map fun t => (s, t), ¬ decide (e.1 = a) = true := by
      intro e he
      rw [decide_eq_true_eq, hstart e he]
      exact Ne.symm h
    rw [List.filter_eq_nil_iff.mpr hnone, List.map_nil]

theorem mem_successors_iff {edges : List (α × α)} {a b : α} :
    b ∈ successors edges a ↔ (a, b) ∈ edges := by
  simp [successors]

theorem successors_eraseDups (edges : List (α × α)) (a : α) :
    successors edges.eraseDups a = (successors edges a).eraseDups := by
  induction edges using List.reverseRecOn with
  | nil => rfl
  | append_singleton edges e ih =>
    obtain ⟨b, c⟩ := e
    rw [eraseDups_concat, successors_append]
    by_cases hb : b = a
    · subst hb
      have hc : successors [(b, c)] b = [c] := by simp [successors]
      rw [hc, eraseDups_concat, ← ih]
      simp only [mem_successors_iff]
      split_ifs
      · rfl
      · rw [successors_append, hc]
    · have hc : successors [(b, c)] a = [] := by simp [successors, hb]
      rw [hc, List.append_nil, ← ih]
      split_ifs
      · rfl
      · rw [successors_append, hc, List.append_nil]

/-! Vertices may be given in two ways, as labels and as numbers: the search is the same. -/

section Related

variable {β : Type} [DecidableEq β] {R : α → β → Prop}
variable {edges : List (α × α)} {edges' : List (β × β)}

theorem forall₂_successors (hR : Relator.BiUnique R)
    (he : List.Forall₂ (fun e e' => R e.1 e'.1 ∧ R e.2 e'.2) edges edges') {a : α} {a' : β}
    (ha : R a a') : List.Forall₂ R (successors edges a) (successors edges' a') := by
  unfold successors
  refine List.rel_map (fun e e' h => h.2) (List.rel_filter (fun e e' h => ?_) he)
  simpa using Relator.rel_eq hR h.1 ha

theorem forall₂_preorder (hR : Relator.BiUnique R)
    (he : List.Forall₂ (fun e e' => R e.1 e'.1 ∧ R e.2 e'.2) edges edges') {visited stack : List α}
    {visited' stack' : List β} (hv : List.Forall₂ R visited visited')
    (hs : List.Forall₂ R stack stack') :
    List.Forall₂ R (preorder edges visited stack) (preorder edges' visited' stack') := by
  fun_induction preorder edges visited stack generalizing visited' stack' with
  | case1 visited =>
    cases hs
    rw [preorder]
    exact List.rel_reverse hv
  | case2 visited a stack ha ih =>
    cases hs with
    | @cons _ a' _ stack' haa hs =>
      have ha' : a' ∈ visited' := (List.rel_mem hR haa hv).mp ha
      rw [preorder, if_pos ha']
      exact ih hv hs
  | case3 visited a stack ha ih =>
    cases hs with
    | @cons _ a' _ stack' haa hs =>
      have ha' : a' ∉ visited' := mt (List.rel_mem hR haa hv).mpr ha
      rw [preorder, if_neg ha']
      exact ih (.cons haa hv) (List.rel_append (forall₂_successors hR he haa) hs)

end Related

end TokenAudit.Graph
