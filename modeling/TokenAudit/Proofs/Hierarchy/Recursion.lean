import TokenAudit.Proofs.Hierarchy.Cycle

/-! The recursion of linearization, from any state that it comes to and whatever the bases: how deep
it goes, what it leaves as it was and what it adds to what has been found. -/

namespace TokenAudit.Hierarchy

open Progress

variable {h : Hierarchy} {d b x : Nat} {p q : Progress} {names : List String}

/-- On the way through the bases of `d`, the call for it in state `p` comes to call for `b` in state
`q`. -/
inductive Invokes (h : Hierarchy) (d : Nat) (p : Progress) : Nat → Progress → Prop
  | base {b : Nat} {q : Progress} {base : String} {front back rows} (hk : p.known? d = none)
      (hbases : (h.basesOf d).reverse = front ++ base :: back)
      (hc : Climb h d front (p.enter d) q rows) (hr : h.resolve? d base = some b) :
      Invokes h d p b q

/-- So many calls stand in each other, the outermost for `d` in state `p`. -/
inductive Nested (h : Hierarchy) (d : Nat) (p : Progress) : Nat → Nat → Progress → Prop
  | outermost : Nested h d p 1 d p
  | inner {n b c : Nat} {q r : Progress} (hn : Nested h d p n b q) (hi : h.Invokes b q c r) :
      Nested h d p (n + 1) c r

/-- The states that calls lead to, at their start and at their end. -/
inductive Reachable (h : Hierarchy) : Progress → Prop
  | start : Reachable h {}
  | invoked {d b : Nat} {p q : Progress} (hp : Reachable h p) (hd : d < h.size)
      (hi : h.Invokes d p b q) : Reachable h q
  | visited {d : Nat} {p q : Progress} {names : List String} (hp : Reachable h p) (hd : d < h.size)
      (hv : Visit h d p q names) : Reachable h q

/-- The declaration is on the way to itself, which cuts its linearization off. -/
def Progress.CutsOff (p : Progress) (d : Nat) : Prop := p.found.lookup d = none ∧ d ∈ p.underway

section Found

variable {bases : List String} {rows : List (List String)} {found : List String}

theorem ne_of_known?_eq_none (hk : p.known? b = none) (hx : p.found.lookup x = some found) :
    x ≠ b := by
  intro heq
  rw [heq, (known?_eq_none_iff.mp hk).1] at hx
  cases hx

/-- What is found on the way is new, so a look-up that found something finds the same. -/
theorem Climb.lookup_kept (hc : Climb h d bases p q rows) (hx : p.found.lookup x = some found) :
    q.found.lookup x = some found := by
  induction hc with
  | done => exact hx
  | leaf _ _ ih => exact ih hx
  | known _ _ _ ih => exact ih hx
  | @visit d base bases b p q r above rows names hr hk hb hn hc ihb ihc =>
    apply ihc
    rw [lookup_leave_of_ne q names (ne_of_known?_eq_none hk hx)]
    exact ihb hx

theorem Visit.lookup_kept (hv : Visit h d p q names) (hx : p.found.lookup x = some found) :
    q.found.lookup x = some found := by
  cases hv with
  | known => exact hx
  | @climb q above _ hk hb hn =>
    rw [lookup_leave_of_ne q names (ne_of_known?_eq_none hk hx)]
    exact hb.lookup_kept hx

/-- What holds of every list that a merge gives holds of all that is found, if it held before. -/
theorem Climb.found_induct {P : Nat → List String → Prop} (hc : Climb h d bases p q rows)
    (hmerge : ∀ b above, P b (Merge.mergeOrFlatten (above ++ [(h.basesOf b).reverse])))
    (hp : ∀ x found, p.found.lookup x = some found → P x found) :
    ∀ x found, q.found.lookup x = some found → P x found := by
  induction hc with
  | done => exact hp
  | leaf _ _ ih => exact ih hp
  | known _ _ _ ih => exact ih hp
  | @visit d base bases b p q r above rows names hr hk hb hn hc ihb ihc =>
    apply ihc
    intro x found hx
    rcases lookup_leave_cases hx with ⟨rfl, rfl⟩ | hx
    · rw [hn]
      exact hmerge x above
    · exact ihb hp x found hx

theorem Visit.found_induct {P : Nat → List String → Prop} (hv : Visit h d p q names)
    (hmerge : ∀ b above, P b (Merge.mergeOrFlatten (above ++ [(h.basesOf b).reverse])))
    (hp : ∀ x found, p.found.lookup x = some found → P x found) :
    ∀ x found, q.found.lookup x = some found → P x found := by
  cases hv with
  | known => exact hp
  | @climb q above _ hk hb hn =>
    intro x found hx
    rcases lookup_leave_cases hx with ⟨rfl, rfl⟩ | hx
    · rw [hn]
      exact hmerge x above
    · exact hb.found_induct hmerge hp x found hx

theorem basesOf_subset_merge (b : Nat) (above : List (List String)) :
    h.basesOf b ⊆ Merge.mergeOrFlatten (above ++ [(h.basesOf b).reverse]) := by
  intro base hbase
  rw [mem_names_iff rfl]
  exact Or.inr hbase

/-- A call that is not cut off finds its names or has found them before. -/
theorem Visit.stored (hv : Visit h d p q names) (hcut : ¬ p.CutsOff d) :
    q.found.lookup d = some names := by
  cases hv with
  | known hk =>
    rcases known?_eq_some_iff.mp hk with hf | ⟨hf, hu, -⟩
    · exact hf
    · exact absurd ⟨hf, hu⟩ hcut
  | climb => exact lookup_leave_self _ d names

theorem Visit.nodup (hv : Visit h d p q names)
    (hp : ∀ x found, p.found.lookup x = some found → found.Nodup) : names.Nodup := by
  by_cases hcut : p.CutsOff d
  · cases hv with
    | known hk =>
      rcases known?_eq_some_iff.mp hk with hf | ⟨-, -, rfl⟩
      · exact hp d names hf
      · exact List.nodup_nil
    | climb _ _ hn =>
      rw [hn]
      exact Merge.nodup_mergeOrFlatten _
  · have hall := hv.found_induct (fun _ _ => Merge.nodup_mergeOrFlatten _) hp
    exact hall d names (hv.stored hcut)

end Found

section Depth

variable {k n : Nat}

theorem Roomy.length_le (hr : h.Roomy k p.underway) : p.underway.length ≤ h.size := by
  by_contra hlt
  have hfull : h.Roomy 0 p.underway := ⟨hr.nodup, hr.lt_size, by omega⟩
  have hpos := hfull.depth_pos
  omega

theorem Invokes.underway_eq (hi : h.Invokes d p b q) : q.underway = d :: p.underway := by
  cases hi with
  | base _ _ hc _ => exact hc.underway_eq

theorem Invokes.lt_size (hi : h.Invokes d p b q) : b < h.size := by
  cases hi with
  | base _ _ _ hr => exact lt_size_of_resolve? hr

/-- A call that calls is not cut off, so that one more declaration is under way within it. -/
theorem Invokes.roomy (hi : h.Invokes d p b q) (hd : d < h.size)
    (hr : h.Roomy (k + 1) p.underway) : h.Roomy k q.underway := by
  rw [hi.underway_eq]
  cases hi with
  | base hk _ _ _ => exact hr.enter hd (known?_eq_none_iff.mp hk).2

/-- The induction is on the calls that stand in each other, from the outermost to the innermost. -/
theorem Nested.roomy (hn : Nested h d p n b q) (hd : d < h.size) (hr : h.Roomy k p.underway) :
    b < h.size ∧ n ≤ k ∧ h.Roomy (k + 1 - n) q.underway := by
  induction hn with
  | outermost =>
    have hpos := hr.depth_pos
    exact ⟨hd, hpos, hr⟩
  | @inner n b c q r hn hi ih =>
    obtain ⟨hb, hle, hroom⟩ := ih
    have hstep : k + 1 - n = (k - n) + 1 := by omega
    rw [hstep] at hroom
    have hinner : h.Roomy (k - n) r.underway := hi.roomy hb hroom
    have hpos := hinner.depth_pos
    have heq : k + 1 - (n + 1) = k - n := by omega
    rw [heq]
    exact ⟨hi.lt_size, by omega, hinner⟩

end Depth

theorem Reachable.roomy (hp : h.Reachable p) : h.Roomy (h.size + 1) p.underway := by
  induction hp with
  | start => exact roomy_start
  | invoked _ hd hi ih =>
    have hinner := hi.roomy hd ih
    exact ⟨hinner.nodup, hinner.lt_size, by omega⟩
  | visited _ _ hv ih => rwa [hv.underway_eq]

theorem Reachable.covers (hp : h.Reachable p) :
    ∀ x found, p.found.lookup x = some found → h.basesOf x ⊆ found := by
  induction hp with
  | start =>
    intro x found hx
    cases hx
  | invoked _ _ hi ih =>
    cases hi with
    | base _ _ hc _ => exact hc.found_induct basesOf_subset_merge ih
  | visited _ _ hv ih => exact hv.found_induct basesOf_subset_merge ih

/-- Linearization is in a reachable state when it comes to the next declaration. -/
theorem reachable_foldl_linearizeNext {k : Nat} (hk : k ≤ h.size) :
    h.Reachable { found := ((List.range k).foldl h.linearizeNext ([], [])).1 } := by
  induction k with
  | zero => exact .start
  | succ k ih =>
    have hp := ih (Nat.le_of_succ_le hk)
    rw [List.range_succ, List.foldl_append]
    generalize (List.range k).foldl h.linearizeNext ([], []) = acc at hp ⊢
    have hv : Visit h k { found := acc.1 } _ _ := ancestors_visit roomy_start hk
    simp only [List.foldl_cons, List.foldl_nil, linearizeNext]
    generalize h.ancestors (h.size + 1) k { found := acc.1 } = outcome at hv ⊢
    obtain ⟨⟨found, underway⟩, names⟩ := outcome
    have hempty : underway = [] := hv.underway_eq
    subst hempty
    exact .visited hp hk hv

/-- From every reachable state a call for any declaration comes to an end, with no more calls in
each other than there are declarations, and one that is cut off. The declarations under way are the
same afterwards, and so is what had been found. The names are without repetitions if all that had
been found is. Unless the call is cut off, they have the bases that the declaration writes among
them and are kept as what has been found for it. -/
theorem ancestors_of_reachable (hp : h.Reachable p) (hd : d < h.size) :
    (∀ n b q, h.Nested d p n b q → p.underway.length + n ≤ h.size + 1) ∧
    ∃ q names, Visit h d p q names ∧
      (∀ depth, h.size < depth + p.underway.length → h.ancestors depth d p = (q, names)) ∧
      q.underway = p.underway ∧
      (∀ x found, p.found.lookup x = some found → q.found.lookup x = some found) ∧
      ((∀ x found, p.found.lookup x = some found → found.Nodup) → names.Nodup) ∧
      (¬ p.CutsOff d → h.basesOf d ⊆ names ∧ q.found.lookup d = some names) := by
  have hroomy := hp.roomy
  have hlength := hroomy.length_le
  constructor
  · intro n b q hn
    have hr : h.Roomy (h.size + 1 - p.underway.length) p.underway :=
      ⟨hroomy.nodup, hroomy.lt_size, by omega⟩
    have hle := (hn.roomy hd hr).2.1
    omega
  · have hv := ancestors_visit hroomy hd
    generalize h.ancestors (h.size + 1) d p = outcome at hv
    obtain ⟨q, names⟩ := outcome
    have hcovers := hv.found_induct basesOf_subset_merge hp.covers
    refine ⟨q, names, hv, fun depth hdepth => ?_, hv.underway_eq, fun x found => hv.lookup_kept,
      hv.nodup, fun hcut => ?_⟩
    · have hr : h.Roomy depth p.underway := ⟨hroomy.nodup, hroomy.lt_size, hdepth⟩
      obtain ⟨hstate, hnames⟩ := (ancestors_visit hr hd).unique hv
      exact Prod.ext hstate hnames
    · have hstored := hv.stored hcut
      exact ⟨hcovers d names hstored, hstored⟩

/-- Where two contracts are bases of each other, the call for the first comes back to it, three
calls deep, and is cut off there. From the second it finds the first. -/
theorem ancestors_of_reachable_looped :
    looped.Reachable (({} : Progress).enter 0) ∧ 1 < looped.size ∧
      looped.Nested 0 {} (looped.size + 1) 0 ((({} : Progress).enter 0).enter 1) ∧
      ∃ q names, looped.ancestors 3 1 (({} : Progress).enter 0) = (q, names) ∧
        q.underway = [0] ∧ names.Nodup ∧ "A" ∈ names ∧ q.found.lookup 1 = some names := by
  have hsize : 1 < looped.size := by decide
  have hfirst : looped.Invokes 0 {} 1 (({} : Progress).enter 0) :=
    @Invokes.base looped 0 {} 1 _ "B" [] [] [] rfl rfl .done (by decide)
  have hsecond : looped.Invokes 1 (({} : Progress).enter 0) 0 ((({} : Progress).enter 0).enter 1) :=
    @Invokes.base looped 1 _ 0 _ "A" [] [] [] rfl rfl .done (by decide)
  have hreach : looped.Reachable (({} : Progress).enter 0) :=
    .invoked .start (Nat.lt_of_succ_lt hsize) hfirst
  refine ⟨hreach, hsize, .inner (.inner .outermost hfirst) hsecond, ?_⟩
  obtain ⟨-, q, names, -, hrun, hunderway, -, hnodup, hfound⟩ := ancestors_of_reachable hreach hsize
  have hcut : ¬ (({} : Progress).enter 0).CutsOff 1 := by
    intro hcut
    have hmem : 1 ∈ [0] := hcut.2
    exact absurd hmem (by decide)
  have hempty : ∀ x found, (({} : Progress).enter 0).found.lookup x = some found → found.Nodup := by
    intro x found hx
    cases hx
  obtain ⟨hbases, hstored⟩ := hfound hcut
  have hmem : "A" ∈ looped.basesOf 1 := by decide
  exact ⟨q, names, hrun 3 (by decide), hunderway, hnodup hempty, hbases hmem, hstored⟩

end TokenAudit.Hierarchy
