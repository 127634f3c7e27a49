import Mathlib.Data.List.Nodup
import TokenAudit.Graph.Rounds

/-! Search in rounds. The search needs no bound on the vertices when all that is met is among them;
it ends, loads no vertex twice, and loads what the least closed set holds. -/

namespace TokenAudit.Graph

variable {α β : Type}

/-- The least set of vertices that holds the seeds and all that is next to what is loaded for one
of its members. -/
inductive Reach (load : α → Option β) (next : β → List α) (seeds : List α) : α → Prop
  | seed {a} (ha : a ∈ seeds) : Reach load next seeds a
  | step {a b c} (ha : Reach load next seeds a) (hb : load a = some b) (hc : c ∈ next b) :
      Reach load next seeds c

/-- What a round meets: all that is next to what it has loaded and has not been seen. -/
def met [DecidableEq α] (load : α → Option β) (next : β → List α) (seen frontier : List α) :
    List α :=
  discover seen ((loadAll load frontier).flatMap fun p => next p.2)

/-- The search with nothing but the vertices that have been seen, one round after another until
a round meets no vertex: it comes to its end and has loaded the given ones. -/
inductive Ends [DecidableEq α] (load : α → Option β) (next : β → List α) :
    List α → List α → List (α × β) → Prop
  | done {seen} : Ends load next seen [] []
  | round {seen frontier loaded} (hne : frontier ≠ [])
      (h : Ends load next (met load next seen frontier ++ seen) (met load next seen frontier)
        loaded) :
      Ends load next seen frontier (loadAll load frontier ++ loaded)

variable {load : α → Option β} {next : β → List α}
variable {seen frontier vertices seeds as : List α} {loaded : List (α × β)} {a : α} {b : β}

theorem mem_loadAll_iff : (a, b) ∈ loadAll load as ↔ a ∈ as ∧ load a = some b := by
  simp only [loadAll, List.mem_filterMap, Option.map_eq_some_iff, Prod.mk.injEq]
  constructor
  · rintro ⟨c, hc, d, hd, rfl, rfl⟩
    exact ⟨hc, hd⟩
  · rintro ⟨ha, hb⟩
    exact ⟨a, ha, b, hb, rfl, rfl⟩

theorem map_loadAll_sublist (load : α → Option β) (as : List α) :
    ((loadAll load as).map (·.1)).Sublist as := by
  induction as with
  | nil => exact List.Sublist.refl _
  | cons a as ih =>
    cases hb : load a with
    | none =>
      have hskip : loadAll load (a :: as) = loadAll load as := by simp [loadAll, hb]
      rw [hskip]
      exact ih.cons a
    | some b =>
      have htake : loadAll load (a :: as) = (a, b) :: loadAll load as := by simp [loadAll, hb]
      rw [htake]
      exact ih.cons_cons a

variable [DecidableEq α]

theorem nodup_discover (seen as : List α) : (discover seen as).Nodup := by
  induction as generalizing seen with
  | nil => exact List.nodup_nil
  | cons a as ih =>
    rw [discover]
    split
    · exact ih seen
    · refine List.nodup_cons.mpr ⟨fun ha => ?_, ih (a :: seen)⟩
      exact (mem_discover_iff.mp ha).2 List.mem_cons_self

theorem mem_met_iff {c : α} : c ∈ met load next seen frontier ↔
    (∃ a ∈ frontier, ∃ b, load a = some b ∧ c ∈ next b) ∧ c ∉ seen := by
  simp only [met, mem_discover_iff, List.mem_flatMap, Prod.exists, mem_loadAll_iff]
  constructor
  · rintro ⟨⟨a, b, ⟨ha, hb⟩, hc⟩, hs⟩
    exact ⟨⟨a, ha, b, hb, hc⟩, hs⟩
  · rintro ⟨⟨a, ha, b, hb, hc⟩, hs⟩
    exact ⟨⟨a, b, ⟨ha, hb⟩, hc⟩, hs⟩

/-- The search stays among `vertices` of its own accord where these hold all that is next to a
vertex. -/
theorem ends_rounds (hin : ∀ a b, load a = some b → next b ⊆ vertices)
    (seen frontier : List α) :
    Ends load next seen frontier (rounds load next vertices seen frontier) := by
  have hfilter : ∀ frontier, ((loadAll load frontier).flatMap fun p => next p.2).filter
      (· ∈ vertices) = (loadAll load frontier).flatMap fun p => next p.2 := by
    intro frontier
    refine List.filter_eq_self.mpr fun c hc => ?_
    obtain ⟨⟨a, b⟩, hab, hcb⟩ := List.mem_flatMap.mp hc
    simpa using hin a b (mem_loadAll_iff.mp hab).2 hcb
  induction seen, frontier using rounds.induct load next vertices with
  | case1 seen frontier loaded met' hempty =>
    rw [rounds, if_pos hempty]
    simp only [hfilter, met', loaded] at hempty
    have hmet : met load next seen frontier = [] := List.isEmpty_iff.mp hempty
    by_cases hne : frontier = []
    · subst hne
      exact .done
    · have hdone : Ends load next (met load next seen frontier ++ seen)
          (met load next seen frontier) [] := by
        rw [hmet]
        exact .done
      simpa using Ends.round hne hdone
  | case2 seen frontier loaded met' hempty ih =>
    rw [rounds, if_neg hempty]
    simp only [hfilter, met', loaded] at hempty ih ⊢
    refine Ends.round (fun hne => hempty ?_) ih
    simp [hne, loadAll, discover]

theorem Ends.reached (h : Ends load next seen frontier loaded)
    (hf : ∀ a ∈ frontier, Reach load next seeds a) (hab : (a, b) ∈ loaded) :
    Reach load next seeds a ∧ load a = some b := by
  induction h with
  | done => cases hab
  | round hne _ ih =>
    rcases List.mem_append.mp hab with hab | hab
    · obtain ⟨ha, hb⟩ := mem_loadAll_iff.mp hab
      exact ⟨hf a ha, hb⟩
    · refine ih (fun c hc => ?_) hab
      obtain ⟨⟨a', ha', b', hb', hc⟩, -⟩ := mem_met_iff.mp hc
      exact .step (hf a' ha') hb' hc

/-- All that is loaded stands in the frontier or has not been seen before, and stands there once. -/
theorem Ends.nodup (h : Ends load next seen frontier loaded) (hf : frontier.Nodup)
    (hsub : frontier ⊆ seen) :
    (loaded.map (·.1)).Nodup ∧ ∀ c ∈ loaded.map (·.1), c ∈ frontier ∨ c ∉ seen := by
  induction h with
  | done => simp
  | @round seen frontier loaded hne _ ih =>
    obtain ⟨hnodup, hnew⟩ := ih (nodup_discover _ _) (List.subset_append_left _ _)
    have hnow : ∀ c ∈ (loadAll load frontier).map (·.1), c ∈ frontier :=
      fun c hc => (map_loadAll_sublist load frontier).subset hc
    have hlater : ∀ c ∈ loaded.map (·.1), c ∉ seen := by
      intro c hc hs
      rcases hnew c hc with hm | hn
      · exact (mem_met_iff.mp hm).2 hs
      · exact hn (List.mem_append_right _ hs)
    rw [List.map_append]
    constructor
    · refine List.nodup_append.mpr ⟨hf.sublist (map_loadAll_sublist load frontier), hnodup, ?_⟩
      rintro c hc d hd rfl
      exact hlater c hd (hsub (hnow c hc))
    · intro c hc
      rcases List.mem_append.mp hc with hc | hc
      · exact Or.inl (hnow c hc)
      · exact Or.inr (hlater c hc)

/-- Vertex `a` is among those loaded, unless it cannot be loaded. -/
def Covers (load : α → Option β) (loaded : List (α × β)) (a : α) : Prop :=
  ∀ b, load a = some b → (a, b) ∈ loaded

/-- The frontier is covered, and all that is next to what is loaded has been seen or is covered. -/
theorem Ends.closed (h : Ends load next seen frontier loaded) :
    (∀ a ∈ frontier, Covers load loaded a) ∧
      ∀ a b, (a, b) ∈ loaded → ∀ c ∈ next b, c ∈ seen ∨ Covers load loaded c := by
  induction h with
  | done => simp
  | @round seen frontier loaded hne _ ih =>
    obtain ⟨hmet, hnext⟩ := ih
    have hmore : ∀ c, Covers load loaded c → Covers load (loadAll load frontier ++ loaded) c :=
      fun c hc b hb => List.mem_append_right _ (hc b hb)
    constructor
    · intro a ha b hb
      exact List.mem_append_left _ (mem_loadAll_iff.mpr ⟨ha, hb⟩)
    · intro a b hab c hc
      by_cases hs : c ∈ seen
      · exact Or.inl hs
      right
      rcases List.mem_append.mp hab with hab | hab
      · obtain ⟨ha, hb⟩ := mem_loadAll_iff.mp hab
        exact hmore c (hmet c (mem_met_iff.mpr ⟨⟨a, ha, b, hb, hc⟩, hs⟩))
      · rcases hnext a b hab c hc with hc | hc
        · exact hmore c (hmet c ((List.mem_append.mp hc).resolve_right hs))
        · exact hmore c hc

theorem Ends.covers_of_reach (h : Ends load next seeds seeds loaded)
    (ha : Reach load next seeds a) : Covers load loaded a := by
  obtain ⟨hseeds, hnext⟩ := h.closed
  induction ha with
  | seed ha => exact hseeds _ ha
  | @step a b c _ hb hc ih =>
    rcases hnext a b (ih b hb) c hc with hc | hc
    · exact hseeds c hc
    · exact hc

/-- A search from its seeds loads what can be loaded of all that is reached from them. -/
theorem Ends.mem_iff (h : Ends load next seeds seeds loaded) :
    (a, b) ∈ loaded ↔ Reach load next seeds a ∧ load a = some b := by
  constructor
  · exact fun hab => h.reached (fun c hc => .seed hc) hab
  · rintro ⟨ha, hb⟩
    exact h.covers_of_reach ha b hb

/-- Loads that agree on all that is met give the same rounds. -/
theorem rounds_congr {load' : α → Option β} {vertices : List α} {P : α → Prop}
    (hload : ∀ a, P a → load a = load' a)
    (hnext : ∀ a b, P a → load a = some b → ∀ c ∈ next b, P c) {seen frontier : List α}
    (hf : ∀ a ∈ frontier, P a) :
    rounds load next vertices seen frontier = rounds load' next vertices seen frontier := by
  have hall : ∀ as : List α, (∀ a ∈ as, P a) → loadAll load' as = loadAll load as :=
    fun as has => List.filterMap_congr fun a ha => by rw [hload a (has a ha)]
  fun_induction rounds load next vertices seen frontier with
  | case1 seen frontier loaded met hmet => rw [rounds, hall frontier hf, if_pos hmet]
  | case2 seen frontier loaded met hmet ih =>
    have hmetP : ∀ c ∈ met, P c := by
      intro c hc
      obtain ⟨⟨a, b⟩, hab, hcb⟩ :=
        List.mem_flatMap.mp (List.mem_filter.mp (mem_discover_iff.mp hc).1).1
      obtain ⟨ha, hb⟩ := mem_loadAll_iff.mp hab
      exact hnext a b (hf a ha) hb c hcb
    have hstep : rounds load' next vertices seen frontier =
        loaded ++ rounds load' next vertices (met ++ seen) met := by
      conv_lhs => rw [rounds, hall frontier hf]
      exact if_neg hmet
    rw [hstep, ih hmetP]

end TokenAudit.Graph
