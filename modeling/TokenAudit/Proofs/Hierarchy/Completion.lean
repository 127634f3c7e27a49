import TokenAudit.Proofs.Hierarchy.Lineage

/-! The order in which linearizations are completed, whatever the bases. What is kept along a run:
all bases that a declaration writes are completed before it, those apart whose declarations were
under way, which then list themselves. -/

namespace TokenAudit.Hierarchy

open Relation

variable {h : Hierarchy} {d b x y : Nat} {base : String} {names : List String}

/-- No two declarations have one name. -/
def Distinct (h : Hierarchy) : Prop := (h.declarations.map (·.name)).Nodup

instance : Decidable h.Distinct := inferInstanceAs (Decidable (List.Nodup _))

/-- Declaration `d` writes the name of declaration `b` as a base, which may be its own. -/
def Writes (h : Hierarchy) (d b : Nat) : Prop := b < h.size ∧ h.nameOf b ∈ h.basesOf d

instance : Decidable (h.Writes d b) := inferInstanceAs (Decidable (_ ∧ _))

theorem Extends.writes (hx : h.Extends d b) : h.Writes d b := by
  have hname : h.nameOf b ∈ h.basesOf d := hx.nameOf_mem_basesOf
  obtain ⟨base, -, hr⟩ := hx
  exact ⟨lt_size_of_resolve? hr, hname⟩

theorem Writes.lt_size (hw : h.Writes d b) : d < h.size := lt_size_of_mem_basesOf hw.2

theorem eq_of_nameOf_eq (distinct : h.Distinct) (hx : x < h.size) (hy : y < h.size)
    (hn : h.nameOf x = h.nameOf y) : x = y := by
  have hx' : x < (h.declarations.map (·.name)).length := by simpa [size] using hx
  have hy' : y < (h.declarations.map (·.name)).length := by simpa [size] using hy
  have hxn : h.nameOf x = (h.declarations.map (·.name))[x] := by
    rw [nameOf_eq (List.getElem?_eq_getElem hx), List.getElem_map]
    rfl
  have hyn : h.nameOf y = (h.declarations.map (·.name))[y] := by
    rw [nameOf_eq (List.getElem?_eq_getElem hy), List.getElem_map]
    rfl
  rw [hxn, hyn] at hn
  exact (List.Nodup.getElem_inj_iff distinct).mp hn

/-- Where names are distinct, a name means the declaration that bears it. -/
theorem resolve?_nameOf (distinct : h.Distinct) (hb : b < h.size) (hne : b ≠ d) :
    h.resolve? d (h.nameOf b) = some b := by
  have hdecl : h.declarations[b]? = some h.declarations[b] := List.getElem?_eq_getElem hb
  have hmem : b ∈ h.candidates d (h.nameOf b) :=
    mem_candidates_iff.mpr ⟨hne, _, hdecl, (nameOf_eq hdecl).symm⟩
  cases hr : h.resolve? d (h.nameOf b) with
  | none =>
    rw [resolve?_eq_none_iff.mp hr] at hmem
    cases hmem
  | some c =>
    rw [eq_of_nameOf_eq distinct (lt_size_of_resolve? hr) hb (nameOf_of_resolve? hr)]

namespace Progress

variable {p q r : Progress}

/-- The declarations that have been found, in the order in which they were. -/
def order (p : Progress) : List Nat := (p.found.map (·.1)).reverse

/-- Declaration `x` has been found, and `y` not before it. -/
def NoLater (p : Progress) (x y : Nat) : Prop := x ∈ p.order ∧ p.order.idxOf x ≤ p.order.idxOf y

def Knows (p : Progress) (d : Nat) : Prop := d ∈ p.order ∨ d ∈ p.underway

/-- What has been found stays, in its place. -/
structure Grows (p q : Progress) : Prop where
  order : p.order <+: q.order
  lookup : ∀ x names, p.found.lookup x = some names → q.found.lookup x = some names

theorem mem_order_iff : x ∈ p.order ↔ ∃ names, p.found.lookup x = some names := by
  rw [← Option.isSome_iff_exists, List.lookup_isSome_iff]
  simp [order]

theorem not_mem_order_iff : x ∉ p.order ↔ p.found.lookup x = none := by
  rw [mem_order_iff, ← Option.isSome_iff_exists, Option.not_isSome_iff_eq_none]

theorem knows_of_known? {names : List String} (hk : p.known? d = some names) : p.Knows d := by
  rcases known?_eq_some_iff.mp hk with hf | ⟨-, hu, -⟩
  · exact Or.inl (mem_order_iff.mpr ⟨names, hf⟩)
  · exact Or.inr hu

theorem Grows.refl (p : Progress) : p.Grows p := ⟨List.prefix_rfl, fun _ _ h => h⟩

theorem Grows.trans (hpq : p.Grows q) (hqr : q.Grows r) : p.Grows r :=
  ⟨hpq.order.trans hqr.order, fun x names h => hqr.lookup x names (hpq.lookup x names h)⟩

theorem Grows.idxOf_eq (hg : p.Grows q) (hx : x ∈ p.order) :
    q.order.idxOf x = p.order.idxOf x := by
  obtain ⟨new, hnew⟩ := hg.order
  rw [← hnew, List.idxOf_append_of_mem hx]

theorem NoLater.grows (hxy : p.NoLater x y) (hg : p.Grows q) : q.NoLater x y := by
  obtain ⟨hx, hle⟩ := hxy
  refine ⟨hg.order.subset hx, ?_⟩
  rw [hg.idxOf_eq hx]
  by_cases hy : y ∈ p.order
  · rw [hg.idxOf_eq hy]
    exact hle
  · -- What is found later comes behind all that has been found.
    obtain ⟨new, hnew⟩ := hg.order
    have hlt : p.order.idxOf x < p.order.length := List.idxOf_lt_length_of_mem hx
    rw [← hnew, List.idxOf_append_of_notMem hy]
    omega

theorem order_leave (q : Progress) (d : Nat) (names : List String) :
    (q.leave d names).order = q.order ++ [d] := by
  simp [order, leave]

theorem lookup_leave_self (q : Progress) (d : Nat) (names : List String) :
    (q.leave d names).found.lookup d = some names := by
  simp [leave]

theorem lookup_leave_of_ne (q : Progress) (names : List String) (hne : x ≠ d) :
    (q.leave d names).found.lookup x = q.found.lookup x := by
  have hbeq : (x == d) = false := by simpa using hne
  simp [leave, List.lookup_cons, hbeq]

theorem lookup_leave_cases {names names' : List String}
    (hx : (q.leave d names).found.lookup x = some names') :
    (x = d ∧ names' = names) ∨ q.found.lookup x = some names' := by
  by_cases hxd : x = d
  · subst hxd
    rw [lookup_leave_self] at hx
    exact Or.inl ⟨rfl, (Option.some.inj hx).symm⟩
  · rw [lookup_leave_of_ne q names hxd] at hx
    exact Or.inr hx

theorem idxOf_leave_self (hd : d ∉ q.order) (names : List String) :
    (q.leave d names).order.idxOf d = q.order.length := by
  rw [order_leave, List.idxOf_append_of_notMem hd]
  simp

theorem idxOf_leave_lt (hy : y ∈ q.order) (d : Nat) (names : List String) :
    (q.leave d names).order.idxOf y < q.order.length := by
  rw [order_leave, List.idxOf_append_of_mem hy]
  exact List.idxOf_lt_length_of_mem hy

theorem grows_leave (hd : q.found.lookup d = none) (names : List String) :
    q.Grows (q.leave d names) := by
  refine ⟨order_leave q d names ▸ List.prefix_append _ _, fun x names' hx => ?_⟩
  have hne : x ≠ d := by
    rintro rfl
    rw [hd] at hx
    cases hx
  rw [lookup_leave_of_ne q names hne, hx]

/-- What is kept while bases are climbed. Of two declarations of which one writes the name of the
other, the one that is written is found first, unless it is still under way, or was when it was
written and then lists itself. -/
structure Sound (h : Hierarchy) (p : Progress) : Prop where
  fresh : ∀ u ∈ p.underway, p.found.lookup u = none
  written : ∀ x names, p.found.lookup x = some names → ∀ n ∈ names,
    ∃ y, ReflTransGen h.Extends x y ∧ n ∈ h.basesOf y ∧ p.NoLater y x
  covers : ∀ x names, p.found.lookup x = some names → h.basesOf x ⊆ names
  settled : ∀ x y, x ∈ p.order → h.Writes x y →
    p.order.idxOf y < p.order.idxOf x ∨ y ∈ p.underway ∨
      ∃ names, p.found.lookup y = some names ∧ h.nameOf y ∈ names

theorem Sound.enter (hp : p.Sound h) (hd : p.known? d = none) : (p.enter d).Sound h := by
  obtain ⟨hf, -⟩ := known?_eq_none_iff.mp hd
  refine ⟨fun u hu => ?_, hp.written, hp.covers, fun x y hx hxy => ?_⟩
  · rcases List.mem_cons.mp hu with rfl | hu
    · exact hf
    · exact hp.fresh u hu
  · rcases hp.settled x y hx hxy with hlt | hu | hself
    · exact Or.inl hlt
    · exact Or.inr (Or.inl (List.mem_cons_of_mem _ hu))
    · exact Or.inr (Or.inr hself)

end Progress

open Progress

/-- What a climb over `bases` of declaration `d` comes to. -/
structure Climbed (h : Hierarchy) (d : Nat) (bases : List String) (p q : Progress)
    (rows : List (List String)) : Prop where
  sound : q.Sound h
  grows : p.Grows q
  flows : ∀ x names, q.found.lookup x = some names →
    p.found.lookup x = some names ∨ names ⊆ rows.flatten
  written : ∀ n ∈ rows.flatten,
    ∃ y, (y = d ∨ y ∈ q.order) ∧ ReflTransGen h.Extends d y ∧ n ∈ h.basesOf y
  known : ∀ base ∈ bases, ∀ b, h.resolve? d base = some b → q.Knows b

/-- What a visit to declaration `d` comes to. -/
structure Visited (h : Hierarchy) (d : Nat) (p q : Progress) (names : List String) : Prop where
  sound : q.Sound h
  grows : p.Grows q
  flows : ∀ x names', q.found.lookup x = some names' →
    p.found.lookup x = some names' ∨ names' ⊆ names
  written : ∀ n ∈ names, ∃ y ∈ q.order, ReflTransGen h.Extends d y ∧ n ∈ h.basesOf y
  known : q.known? d = some names

theorem visited_known {p : Progress} (hp : p.Sound h) (hk : p.known? d = some names) :
    Visited h d p p names := by
  refine ⟨hp, Grows.refl p, fun _ _ h => Or.inl h, fun n hn => ?_, hk⟩
  rcases known?_eq_some_iff.mp hk with hf | ⟨-, -, rfl⟩
  · obtain ⟨y, hy, hny, hle⟩ := hp.written d names hf n hn
    exact ⟨y, hle.1, hy, hny⟩
  · cases hn

section Leave

variable {p q : Progress} {above : List (List String)}

theorem mem_names_iff (hn : names = Merge.mergeOrFlatten (above ++ [(h.basesOf d).reverse]))
    {n : String} : n ∈ names ↔ n ∈ above.flatten ∨ n ∈ h.basesOf d := by
  rw [hn, Merge.mem_mergeOrFlatten]
  simp

/-- A declaration that was found below `d` and writes its name has passed it on to `d`. -/
theorem Climbed.nameOf_mem (hp : p.Sound h) (hk : p.known? d = none)
    (hc : Climbed h d (h.basesOf d).reverse (p.enter d) q above) (hx : x ∈ q.order)
    (hxd : h.Writes x d) : h.nameOf d ∈ above.flatten := by
  obtain ⟨hpf, hpu⟩ := known?_eq_none_iff.mp hk
  have hpd : d ∉ p.order := not_mem_order_iff.mpr hpf
  obtain ⟨names, hnames⟩ := mem_order_iff.mp hx
  rcases hc.flows x names hnames with hold | hsub
  · -- What had been found before has settled without `d`.
    have hxp : x ∈ p.order := mem_order_iff.mpr ⟨names, hold⟩
    rcases hp.settled x d hxp hxd with hlt | hu | ⟨names', hd, -⟩
    · have hdp : d ∈ p.order :=
        List.idxOf_lt_length_iff.mp (Nat.lt_trans hlt (List.idxOf_lt_length_of_mem hxp))
      exact absurd hdp hpd
    · exact absurd hu hpu
    · rw [hpf] at hd
      cases hd
  · exact hsub (hc.sound.covers x names hnames hxd.2)

/-- What `d` writes has been found before it, is under way, or is its own name. -/
theorem Climbed.before_or_underway (distinct : h.Distinct)
    (hc : Climbed h d (h.basesOf d).reverse (p.enter d) q above)
    (hu : q.underway = (p.enter d).underway) (hdy : h.Writes d y) (hne : y ≠ d) :
    y ∈ q.order ∨ y ∈ p.underway := by
  have hr : h.resolve? d (h.nameOf y) = some y := resolve?_nameOf distinct hdy.1 hne
  rcases hc.known _ (List.mem_reverse.mpr hdy.2) y hr with hy | hy
  · exact Or.inl hy
  · rw [hu] at hy
    exact Or.inr ((List.mem_cons.mp hy).resolve_left hne)

/-- The names of `d` are written by what has been found no later than `d`. -/
theorem Climbed.written_leave (hc : Climbed h d (h.basesOf d).reverse (p.enter d) q above)
    (hd : q.found.lookup d = none)
    (hn : names = Merge.mergeOrFlatten (above ++ [(h.basesOf d).reverse])) {n : String}
    (hmem : n ∈ names) :
    ∃ y, ReflTransGen h.Extends d y ∧ n ∈ h.basesOf y ∧ (q.leave d names).NoLater y d := by
  have hdorder : d ∈ (q.leave d names).order :=
    mem_order_iff.mpr ⟨names, lookup_leave_self q d names⟩
  rcases (mem_names_iff hn).mp hmem with habove | hbase
  · obtain ⟨y, rfl | hy, hpath, hny⟩ := hc.written n habove
    · exact ⟨y, hpath, hny, hdorder, Nat.le_refl _⟩
    · refine ⟨y, hpath, hny, (grows_leave hd names).order.subset hy, ?_⟩
      rw [idxOf_leave_self (not_mem_order_iff.mpr hd)]
      exact Nat.le_of_lt (idxOf_leave_lt hy d names)
  · exact ⟨d, .refl, hbase, hdorder, Nat.le_refl _⟩

theorem Climbed.settled_leave (distinct : h.Distinct) (hp : p.Sound h) (hk : p.known? d = none)
    (hu : q.underway = (p.enter d).underway)
    (hc : Climbed h d (h.basesOf d).reverse (p.enter d) q above)
    (hn : names = Merge.mergeOrFlatten (above ++ [(h.basesOf d).reverse]))
    (hx : x ∈ (q.leave d names).order) (hxy : h.Writes x y) :
    (q.leave d names).order.idxOf y < (q.leave d names).order.idxOf x ∨ y ∈ p.underway ∨
      ∃ names', (q.leave d names).found.lookup y = some names' ∧ h.nameOf y ∈ names' := by
  have hfresh : q.found.lookup d = none := hc.sound.fresh d (hu ▸ List.mem_cons_self)
  have hgrows : q.Grows (q.leave d names) := grows_leave hfresh names
  have hself : (q.leave d names).found.lookup d = some names := lookup_leave_self q d names
  rw [order_leave, List.mem_append, List.mem_singleton] at hx
  rcases hx with hx | rfl
  · rcases hc.sound.settled x y hx hxy with hlt | hy | ⟨names', hy, hlists⟩
    · have hyq : y ∈ q.order :=
        List.idxOf_lt_length_iff.mp (Nat.lt_trans hlt (List.idxOf_lt_length_of_mem hx))
      rw [hgrows.idxOf_eq hx, hgrows.idxOf_eq hyq]
      exact Or.inl hlt
    · rw [hu] at hy
      rcases List.mem_cons.mp hy with rfl | hy
      · have hlists : h.nameOf y ∈ above.flatten := hc.nameOf_mem hp hk hx hxy
        exact Or.inr (Or.inr ⟨names, hself, (mem_names_iff hn).mpr (Or.inl hlists)⟩)
      · exact Or.inr (Or.inl hy)
    · exact Or.inr (Or.inr ⟨names', hgrows.lookup y names' hy, hlists⟩)
  · by_cases hne : y = x
    · subst hne
      exact Or.inr (Or.inr ⟨names, hself, (mem_names_iff hn).mpr (Or.inr hxy.2)⟩)
    · rcases hc.before_or_underway distinct hu hxy hne with hy | hy
      · rw [idxOf_leave_self (not_mem_order_iff.mpr hfresh)]
        exact Or.inl (idxOf_leave_lt hy x names)
      · exact Or.inr (Or.inl hy)

theorem Climbed.sound_leave (distinct : h.Distinct) (hp : p.Sound h) (hk : p.known? d = none)
    (hu : q.underway = (p.enter d).underway)
    (hc : Climbed h d (h.basesOf d).reverse (p.enter d) q above)
    (hn : names = Merge.mergeOrFlatten (above ++ [(h.basesOf d).reverse])) :
    (q.leave d names).Sound h := by
  have hpu : d ∉ p.underway := (known?_eq_none_iff.mp hk).2
  have hfresh : q.found.lookup d = none := hc.sound.fresh d (hu ▸ List.mem_cons_self)
  have hunderway : (q.leave d names).underway = p.underway := underway_leave_enter hu names
  constructor
  case fresh =>
    intro u huw
    rw [hunderway] at huw
    have hne : u ≠ d := by
      rintro rfl
      exact hpu huw
    rw [lookup_leave_of_ne q names hne]
    exact hc.sound.fresh u (hu ▸ List.mem_cons_of_mem _ huw)
  case written =>
    intro x names' hx n hmem
    rcases lookup_leave_cases hx with ⟨rfl, rfl⟩ | hx
    · exact hc.written_leave hfresh hn hmem
    · obtain ⟨y, hpath, hny, hle⟩ := hc.sound.written x names' hx n hmem
      exact ⟨y, hpath, hny, hle.grows (grows_leave hfresh names)⟩
  case covers =>
    intro x names' hx
    rcases lookup_leave_cases hx with ⟨rfl, rfl⟩ | hx
    · exact fun n hbase => (mem_names_iff hn).mpr (Or.inr hbase)
    · exact hc.sound.covers x names' hx
  case settled =>
    intro x y hx hxy
    rw [hunderway]
    exact hc.settled_leave distinct hp hk hu hn hx hxy

/-- When all rows below `d` have been climbed, `d` has been visited. -/
theorem Climbed.visited (distinct : h.Distinct) (hp : p.Sound h) (hk : p.known? d = none)
    (hu : q.underway = (p.enter d).underway)
    (hc : Climbed h d (h.basesOf d).reverse (p.enter d) q above)
    (hn : names = Merge.mergeOrFlatten (above ++ [(h.basesOf d).reverse])) :
    Visited h d p (q.leave d names) names := by
  have hfresh : q.found.lookup d = none := hc.sound.fresh d (hu ▸ List.mem_cons_self)
  have hgrows : q.Grows (q.leave d names) := grows_leave hfresh names
  have hself : (q.leave d names).found.lookup d = some names := lookup_leave_self q d names
  constructor
  case sound => exact hc.sound_leave distinct hp hk hu hn
  case grows =>
    have hentered : p.Grows q := ⟨hc.grows.order, hc.grows.lookup⟩
    exact hentered.trans hgrows
  case flows =>
    intro x names' hx
    rcases lookup_leave_cases hx with ⟨-, rfl⟩ | hx
    · exact Or.inr (List.Subset.refl _)
    · rcases hc.flows x names' hx with hold | hsub
      · exact Or.inl hold
      · exact Or.inr fun n hn' => (mem_names_iff hn).mpr (Or.inl (hsub hn'))
  case written =>
    intro n hmem
    obtain ⟨y, hpath, hny, hle⟩ := hc.written_leave hfresh hn hmem
    exact ⟨y, hle.1, hpath, hny⟩
  case known => exact known?_eq_some_iff.mpr (Or.inl hself)

end Leave

theorem climbed_nil {p : Progress} (hp : p.Sound h) : Climbed h d [] p p [] :=
  ⟨hp, Grows.refl p, fun _ _ h => Or.inl h, by simp, by simp⟩

theorem Climbed.leaf {bases : List String} {p q : Progress} {rows : List (List String)}
    (hbase : base ∈ h.basesOf d) (hr : h.resolve? d base = none)
    (hc : Climbed h d bases p q rows) : Climbed h d (base :: bases) p q ([base] :: rows) := by
  constructor
  case sound => exact hc.sound
  case grows => exact hc.grows
  case flows =>
    intro x names hx
    rcases hc.flows x names hx with hold | hsub
    · exact Or.inl hold
    · exact Or.inr fun n hn => List.mem_append_right _ (hsub hn)
  case written =>
    intro n hn
    rcases List.mem_cons.mp hn with rfl | hn
    · exact ⟨d, Or.inl rfl, .refl, hbase⟩
    · exact hc.written n hn
  case known =>
    intro base' hbase' b hb
    rcases List.mem_cons.mp hbase' with rfl | hbase'
    · rw [hr] at hb
      cases hb
    · exact hc.known base' hbase' b hb

theorem Climbed.step {bases : List String} {p q r : Progress} {rows : List (List String)}
    (hbase : base ∈ h.basesOf d) (hr : h.resolve? d base = some b) (hv : Visited h b p q names)
    (hu : r.underway = q.underway) (hc : Climbed h d bases q r rows) :
    Climbed h d (base :: bases) p r ((base :: names) :: rows) := by
  have hx : h.Extends d b := ⟨base, hbase, hr⟩
  constructor
  case sound => exact hc.sound
  case grows => exact hv.grows.trans hc.grows
  case flows =>
    intro x names' hx
    rcases hc.flows x names' hx with hq | hsub
    · rcases hv.flows x names' hq with hold | hsub
      · exact Or.inl hold
      · refine Or.inr fun n hn => List.mem_cons_of_mem _ ?_
        exact List.mem_append_left _ (hsub hn)
    · exact Or.inr fun n hn => List.mem_append_right _ (hsub hn)
  case written =>
    intro n hn
    rw [List.flatten_cons, List.mem_append, List.mem_cons] at hn
    rcases hn with (rfl | hn) | hn
    · exact ⟨d, Or.inl rfl, .refl, hbase⟩
    · obtain ⟨y, hy, hpath, hny⟩ := hv.written n hn
      exact ⟨y, Or.inr (hc.grows.order.subset hy), hpath.head hx, hny⟩
    · exact hc.written n hn
  case known =>
    intro base' hbase' b' hb'
    rcases List.mem_cons.mp hbase' with rfl | hbase'
    · obtain rfl : b = b' := Option.some.inj (hr.symm.trans hb')
      rcases knows_of_known? hv.known with hy | hy
      · exact Or.inl (hc.grows.order.subset hy)
      · exact Or.inr (hu ▸ hy)
    · exact hc.known base' hbase' b' hb'

/-- The induction is on the run: what is climbed from a base is done before what follows it. -/
theorem Climb.climbed (distinct : h.Distinct) {bases : List String} {p q : Progress}
    {rows : List (List String)} (hc : Climb h d bases p q rows) (hsub : bases ⊆ h.basesOf d)
    (hp : p.Sound h) : Climbed h d bases p q rows := by
  induction hc with
  | done => exact climbed_nil hp
  | leaf hr _ ih =>
    obtain ⟨hbase, hbases⟩ := List.cons_subset.mp hsub
    exact (ih hbases hp).leaf hbase hr
  | known hr hk hc ih =>
    obtain ⟨hbase, hbases⟩ := List.cons_subset.mp hsub
    exact (ih hbases hp).step hbase hr (visited_known hp hk) hc.underway_eq
  | @visit d base bases b p q r above rows names hr hk hb hn hc ihb ihc =>
    obtain ⟨hbase, hbases⟩ := List.cons_subset.mp hsub
    have hclimbed := ihb (fun n hn => List.mem_reverse.mp hn) (hp.enter hk)
    have hv : Visited h b p (q.leave b names) names :=
      hclimbed.visited distinct hp hk hb.underway_eq hn
    exact (ihc hbases hv.sound).step hbase hr hv hc.underway_eq

theorem Visit.visited (distinct : h.Distinct) {p q : Progress} (hv : Visit h d p q names)
    (hp : p.Sound h) : Visited h d p q names := by
  cases hv with
  | known hk => exact visited_known hp hk
  | climb hk hb hn =>
    have hc := hb.climbed distinct (fun n hn => List.mem_reverse.mp hn) (hp.enter hk)
    exact hc.visited distinct hp hk hb.underway_eq hn

/-- What has been found when the first `k` declarations have been linearized. -/
def explored (h : Hierarchy) (k : Nat) : Progress :=
  (List.range k).foldl (fun p d => (h.ancestors (h.size + 1) d p).1) {}

/-- All declarations, in the order in which their linearizations are finished. -/
def completion (h : Hierarchy) : List Nat := (h.explored h.size).order

theorem explored_succ (h : Hierarchy) (k : Nat) :
    h.explored (k + 1) = (h.ancestors (h.size + 1) k (h.explored k)).1 := by
  simp [explored, List.range_succ]

theorem explored_visit {k : Nat} (hk : k < h.size) (hu : (h.explored k).underway = []) :
    Visit h k (h.explored k) (h.explored (k + 1))
      (h.ancestors (h.size + 1) k (h.explored k)).2 := by
  rw [explored_succ]
  exact ancestors_visit (hu ▸ roomy_start) hk

theorem underway_explored {k : Nat} (hk : k ≤ h.size) : (h.explored k).underway = [] := by
  induction k with
  | zero => rfl
  | succ k ih =>
    have hu := ih (Nat.le_of_succ_le hk)
    rw [(explored_visit hk hu).underway_eq, hu]

theorem sound_explored (distinct : h.Distinct) {k : Nat} (hk : k ≤ h.size) :
    (h.explored k).Sound h := by
  induction k with
  | zero => constructor <;> simp [explored, order]
  | succ k ih =>
    have hle := Nat.le_of_succ_le hk
    exact ((explored_visit hk (underway_explored hle)).visited distinct (ih hle)).sound

theorem lookup_explored (distinct : h.Distinct) {k : Nat} (hk : k < h.size) :
    (h.explored (k + 1)).found.lookup k =
      some (h.ancestors (h.size + 1) k (h.explored k)).2 := by
  have hu := underway_explored (Nat.le_of_lt hk)
  have hsound := sound_explored distinct (Nat.le_of_lt hk)
  rcases known?_eq_some_iff.mp ((explored_visit hk hu).visited distinct hsound).known with
    hf | ⟨-, hcut, -⟩
  · exact hf
  · rw [underway_explored hk] at hcut
    cases hcut

/-- `lineages` hands out what it finds, and nothing found is lost. -/
theorem lookup_foldl_lineages (distinct : h.Distinct) {k : Nat} (hk : k ≤ h.size) :
    ∃ names : List (List String),
      (List.range k).foldl h.linearizeNext ([], []) = ((h.explored k).found, names) ∧
      names.length = k ∧ ∀ d < k, (h.explored k).found.lookup d = names[d]? := by
  induction k with
  | zero => exact ⟨[], rfl, rfl, by simp⟩
  | succ k ih =>
    obtain ⟨names, hfold, hlen, hfound⟩ := ih (Nat.le_of_succ_le hk)
    have hu := underway_explored (Nat.le_of_succ_le hk)
    have hstart : ({ found := (h.explored k).found } : Progress) = h.explored k := by
      rw [← hu]
    have hv := (explored_visit hk hu).visited distinct
      (sound_explored distinct (Nat.le_of_succ_le hk))
    refine ⟨names ++ [(h.ancestors (h.size + 1) k (h.explored k)).2], ?_, ?_, ?_⟩
    · rw [List.range_succ, List.foldl_append, hfold]
      simp only [List.foldl_cons, List.foldl_nil, linearizeNext, hstart, explored_succ]
    · simp [hlen]
    · intro d hd
      rcases Nat.lt_succ_iff_lt_or_eq.mp hd with hlt | rfl
      · rw [List.getElem?_append_left (by omega), ← hfound d hlt]
        have hsome : ∃ above, (h.explored k).found.lookup d = some above := by
          rw [hfound d hlt]
          exact ⟨_, List.getElem?_eq_getElem (by omega)⟩
        obtain ⟨above, habove⟩ := hsome
        rw [habove, hv.grows.lookup d above habove]
      · rw [lookup_explored distinct hk, ← hlen]
        simp

theorem lookup_lineages (distinct : h.Distinct) (hd : d < h.size) :
    (h.explored h.size).found.lookup d = some (h.inheritanceOf d) := by
  obtain ⟨names, hfold, hlen, hfound⟩ := lookup_foldl_lineages distinct (Nat.le_refl h.size)
  have hlineages : h.lineages = names := congrArg Prod.snd hfold
  have hname : names[d]? = some names[d] := List.getElem?_eq_getElem (by omega)
  have hdecl : h.declarations[d]? = some h.declarations[d] := List.getElem?_eq_getElem hd
  rw [hfound d hd, hname]
  simp [inheritanceOf, linearize, hlineages, List.getElem?_zipWith, hname, hdecl,
    Declaration.toContract]

theorem mem_completion (distinct : h.Distinct) (hd : d < h.size) : d ∈ h.completion :=
  mem_order_iff.mpr ⟨_, lookup_lineages distinct hd⟩

end TokenAudit.Hierarchy
