import Mathlib.Order.WellFounded
import TokenAudit.Proofs.Hierarchy.Cycle
import TokenAudit.Proofs.Positions

/-! Linearization and the order in which declarations are loaded. A search from one declaration
alone finds the same names in every order. Names that are kept from one declaration to the next do
not: what was found on a cycle is short of all that was under way by then. -/

namespace TokenAudit.Hierarchy

open Relation

variable {h h' : Hierarchy} {d d' b b' x y : Nat} {base : String}

theorem Distinct.perm (distinct : h.Distinct) (hp : h'.declarations.Perm h.declarations) :
    h'.Distinct :=
  (hp.map _).nodup_iff.mpr distinct

theorem Distinct.nodup (distinct : h.Distinct) : h.declarations.Nodup := .of_map _ distinct

theorem resolve?_eq_some_iff (distinct : h.Distinct) :
    h.resolve? d base = some b ↔ b < h.size ∧ b ≠ d ∧ h.nameOf b = base := by
  constructor
  · intro hr
    have hne : b ≠ d := (mem_candidates_iff.mp (mem_candidates_of_resolve? hr)).1
    exact ⟨lt_size_of_resolve? hr, hne, nameOf_of_resolve? hr⟩
  · rintro ⟨hb, hne, rfl⟩
    exact resolve?_nameOf distinct hb hne

section Same

variable (hd : SameAt h.declarations h'.declarations d d')

include hd

theorem nameOf_sameAt : h'.nameOf d' = h.nameOf d := by
  rw [nameOf, nameOf, hd.getElem?_eq]

theorem basesOf_sameAt : h'.basesOf d' = h.basesOf d := by
  rw [basesOf, basesOf, hd.getElem?_eq]

theorem resolve?_sameAt (distinct : h.Distinct) (hp : h'.declarations.Perm h.declarations)
    (hb : SameAt h.declarations h'.declarations b b') :
    h'.resolve? d' base = some b' ↔ h.resolve? d base = some b := by
  have distinct' : h'.Distinct := distinct.perm hp
  have hne : b' ≠ d' ↔ b ≠ d := not_congr (hb.eq_iff distinct.nodup distinct'.nodup hd).symm
  rw [resolve?_eq_some_iff distinct, resolve?_eq_some_iff distinct', hne, nameOf_sameAt hb]
  simp only [show b < h.size from hb.lt_length, show b' < h'.size from hb.symm.lt_length, true_and]

theorem extends_sameAt (distinct : h.Distinct) (hp : h'.declarations.Perm h.declarations)
    (hx : h.Extends d b) :
    ∃ b', SameAt h.declarations h'.declarations b b' ∧ h'.Extends d' b' := by
  obtain ⟨base, hbase, hr⟩ := hx
  obtain ⟨b', hb⟩ := exists_sameAt hp (lt_size_of_resolve? hr)
  exact ⟨b', hb, base, basesOf_sameAt hd ▸ hbase, (resolve?_sameAt hd distinct hp hb).mpr hr⟩

theorem transGen_sameAt (distinct : h.Distinct) (hp : h'.declarations.Perm h.declarations)
    (hx : TransGen h.Extends d b) :
    ∃ b', SameAt h.declarations h'.declarations b b' ∧ TransGen h'.Extends d' b' := by
  induction hx with
  | single hx =>
    obtain ⟨b', hb, hx'⟩ := extends_sameAt hd distinct hp hx
    exact ⟨b', hb, .single hx'⟩
  | tail _ hx ih =>
    obtain ⟨c', hc, hpath⟩ := ih
    obtain ⟨b', hb, hx'⟩ := extends_sameAt hc distinct hp hx
    exact ⟨b', hb, hpath.tail hx'⟩

/-- The rows of a declaration are the same in another order, if the names above its bases are. -/
theorem rowsOf_sameAt (distinct : h.Distinct) (hp : h'.declarations.Perm h.declarations)
    {above above' : Nat → List String}
    (habove : ∀ b b', SameAt h.declarations h'.declarations b b' → above' b' = above b) :
    h'.rowsOf above' d' = h.rowsOf above d := by
  unfold rowsOf
  rw [basesOf_sameAt hd]
  congr 1
  refine List.map_congr_left fun base _ => ?_
  cases hr : h.resolve? d base with
  | some b =>
    obtain ⟨b', hb⟩ := exists_sameAt hp (lt_size_of_resolve? hr)
    have hr' : h'.resolve? d' base = some b' := (resolve?_sameAt hd distinct hp hb).mpr hr
    simp [hr', habove b b' hb]
  | none =>
    cases hr' : h'.resolve? d' base with
    | none => rfl
    | some b' =>
      obtain ⟨b, hb⟩ := exists_sameAt hp.symm (lt_size_of_resolve? hr')
      rw [(resolve?_sameAt hd distinct hp hb.symm).mp hr'] at hr
      cases hr

/-- The search from one declaration alone does not depend on the order, with or without cycles. -/
theorem ancestorsAfresh_sameAt (distinct : h.Distinct)
    (hp : h'.declarations.Perm h.declarations) {depth : Nat} {underway underway' : List Nat}
    (hu : ∀ u u', SameAt h.declarations h'.declarations u u' → (u' ∈ underway' ↔ u ∈ underway)) :
    h'.ancestorsAfresh depth underway' d' = h.ancestorsAfresh depth underway d := by
  induction depth generalizing d d' underway underway' with
  | zero => rfl
  | succ depth ih =>
    have distinct' : h'.Distinct := distinct.perm hp
    rw [ancestorsAfresh, ancestorsAfresh]
    simp only [hu d d' hd]
    split
    · rfl
    · congr 1
      refine rowsOf_sameAt hd distinct hp fun b b' hb => ih hb fun u u' hu' => ?_
      rw [List.mem_cons, List.mem_cons, hu u u' hu',
        hu'.eq_iff distinct.nodup distinct'.nodup hd]

theorem lineage_sameAt (distinct : h.Distinct) (hp : h'.declarations.Perm h.declarations) :
    h'.lineage d' = h.lineage d := by
  have hsize : h'.size = h.size := hp.length_eq
  rw [lineage, lineage, hsize]
  exact ancestorsAfresh_sameAt hd distinct hp (by simp)

end Same

/-- What is kept along the way is right wherever no cycle is met. -/
theorem correct_explored {k : Nat} (hk : k ≤ h.size) : (h.explored k).Correct h := by
  induction k with
  | zero => simp [Progress.Correct, explored]
  | succ k ih =>
    have hle : k ≤ h.size := Nat.le_of_succ_le hk
    have hu := underway_explored hle
    exact ((explored_visit hk hu).eq_lineage (ih hle) hu).2

theorem inheritanceOf_eq_lineage (distinct : h.Distinct) (hd : d < h.size)
    (acyclic : h.AcyclicFrom d) : h.inheritanceOf d = h.lineage d :=
  correct_explored (Nat.le_refl _) d _ (lookup_lineages distinct hd) acyclic

theorem acyclicFrom_sameAt (distinct : h.Distinct) (hp : h'.declarations.Perm h.declarations)
    (hd : SameAt h.declarations h'.declarations d d') (acyclic : h.AcyclicFrom d) :
    h'.AcyclicFrom d' := by
  have distinct' : h'.Distinct := distinct.perm hp
  intro e' he' hcycle
  have hpath : ∃ e, SameAt h'.declarations h.declarations e' e ∧ ReflTransGen h.Extends d e := by
    rcases reflTransGen_iff_eq_or_transGen.mp he' with rfl | hpath
    · exact ⟨d, hd.symm, .refl⟩
    · obtain ⟨e, he, hpath⟩ := transGen_sameAt hd.symm distinct' hp.symm hpath
      exact ⟨e, he, hpath.to_reflTransGen⟩
  obtain ⟨e, he, hpath⟩ := hpath
  obtain ⟨e₁, he₁, hloop⟩ := transGen_sameAt he distinct' hp.symm hcycle
  obtain rfl : e = e₁ := he.inj distinct.nodup he₁
  exact acyclic e hpath hloop

/-- A declaration from which no cycle is met inherits the same names in every order. -/
theorem inheritanceOf_sameAt (distinct : h.Distinct) (hp : h'.declarations.Perm h.declarations)
    (hd : SameAt h.declarations h'.declarations d d') (acyclic : h.AcyclicFrom d) :
    h'.inheritanceOf d' = h.inheritanceOf d := by
  rw [inheritanceOf_eq_lineage distinct hd.lt_length acyclic,
    inheritanceOf_eq_lineage (distinct.perm hp) hd.symm.lt_length
      (acyclicFrom_sameAt distinct hp hd acyclic), lineage_sameAt hd distinct hp]

theorem grows_explored (distinct : h.Distinct) {k n : Nat} (hkn : k ≤ n) (hn : n ≤ h.size) :
    (h.explored k).Grows (h.explored n) := by
  induction hkn with
  | refl => exact Progress.Grows.refl _
  | @step n _ ih =>
    have hle : n ≤ h.size := Nat.le_of_succ_le hn
    have hv := (explored_visit hn (underway_explored hle)).visited distinct
      (sound_explored distinct hle)
    exact (ih hle).trans hv.grows

/-- When all that has been visited is complete, so is all that stands above it. -/
theorem mem_order_of_extends (distinct : h.Distinct) {k : Nat} (hk : k ≤ h.size)
    (hx : x ∈ (h.explored k).order) (hxy : h.Extends x y) : y ∈ (h.explored k).order := by
  rcases (sound_explored distinct hk).settled x y hx hxy.writes with hlt | hu | ⟨names, hy, -⟩
  · exact List.idxOf_lt_length_iff.mp (Nat.lt_trans hlt (List.idxOf_lt_length_of_mem hx))
  · rw [underway_explored hk] at hu
    cases hu
  · exact Progress.mem_order_iff.mpr ⟨names, hy⟩

/-- The declaration that is visited first is completed after all that stands above it. -/
theorem completed_no_later_than_first (distinct : h.Distinct) (hpath : ReflTransGen h.Extends 0 y)
    (hsize : 0 < h.size) : h.completion.idxOf y ≤ h.completion.idxOf 0 := by
  have hvisit := explored_visit (h := h) hsize rfl
  have hy : y ∈ (h.explored 1).order := by
    induction hpath with
    | refl => exact Progress.mem_order_iff.mpr ⟨_, lookup_explored distinct hsize⟩
    | tail _ hx ih => exact mem_order_of_extends distinct hsize ih hx
  have hlast : (h.explored 1).NoLater y 0 := by
    generalize h.explored 1 = p at hvisit hy
    cases hvisit with
    | known hk => cases hk
    | @climb q above _ hk hb hn =>
      refine ⟨hy, ?_⟩
      have hfresh : q.found.lookup 0 = none := by
        have hc := hb.climbed distinct (fun n hn => List.mem_reverse.mp hn)
          ((sound_explored distinct (Nat.zero_le _)).enter hk)
        exact hc.sound.fresh 0 (hb.underway_eq ▸ List.mem_cons_self)
      rw [Progress.idxOf_leave_self (Progress.not_mem_order_iff.mpr hfresh)]
      have hlt := List.idxOf_lt_length_of_mem hy
      rw [Progress.order_leave, List.length_append, List.length_singleton] at hlt
      rw [Progress.order_leave]
      omega
  exact (hlast.grows (grows_explored distinct hsize (Nat.le_refl _))).2

/-- The first declaration lists itself if it is on a cycle. -/
theorem listsItself_first (distinct : h.Distinct) (hcycle : TransGen h.Extends 0 0) :
    h.ListsItself 0 := by
  have hsize : 0 < h.size := lt_size_of_transGen hcycle
  obtain ⟨x, hpath, hx⟩ := TransGen.tail'_iff.mp hcycle
  have hle := completed_no_later_than_first distinct hpath hsize
  exact (listsItself_iff distinct hsize).mpr ⟨x, hx.writes, hle⟩

theorem Writes.extends (distinct : h.Distinct) (hw : h.Writes x y) (hne : y ≠ x) :
    h.Extends x y :=
  ⟨h.nameOf y, hw.2, resolve?_nameOf distinct hw.1 hne⟩

/-- Of the declarations on a cycle the one that is completed first does not list itself, unless
it writes its own name. -/
theorem exists_not_listsItself (distinct : h.Distinct) (hown : ∀ d, ¬ h.Writes d d)
    (hcycle : TransGen h.Extends d d) :
    ∃ m, TransGen h.Extends d m ∧ TransGen h.Extends m d ∧ ¬ h.ListsItself m := by
  obtain ⟨m, ⟨hdm, hmd⟩, hleast⟩ :=
    (measure h.completion.idxOf).wf.has_min
      {e | TransGen h.Extends d e ∧ TransGen h.Extends e d} ⟨d, hcycle, hcycle⟩
  refine ⟨m, hdm, hmd, fun hlists => ?_⟩
  have hm : m < h.size := lt_size_of_transGen hmd
  obtain ⟨x, hpath, hx, hle⟩ := exists_writes_of_mem_inheritanceOf distinct hm hlists
  have hw : h.Writes x m := ⟨hm, hx⟩
  have hne : m ≠ x := by
    rintro rfl
    exact hown m hw
  -- The writer stands above `m` and is on the cycle too, so it cannot be completed sooner.
  have hdx : TransGen h.Extends d x := hdm.trans_left hpath
  have hxd : TransGen h.Extends x d := .head (hw.extends distinct hne) hmd
  have hnot : ¬ h.completion.idxOf x < h.completion.idxOf m := hleast x ⟨hdx, hxd⟩
  have hsame : h.completion.idxOf x = h.completion.idxOf m := by omega
  exact hne ((List.idxOf_inj (mem_completion distinct hw.lt_size)).mp hsame).symm

/-- The declarations with that at position `d` in front of all others. -/
def startingWith (h : Hierarchy) (d : Nat) : Hierarchy :=
  { h with declarations := h.declarations[d]?.toList ++ h.declarations.eraseIdx d }

theorem startingWith_perm (hd : d < h.size) :
    (h.startingWith d).declarations.Perm h.declarations := by
  have hdecl : h.declarations[d]? = some h.declarations[d] := List.getElem?_eq_getElem hd
  simpa [startingWith, hdecl] using List.getElem_cons_eraseIdx_perm hd

theorem sameAt_startingWith (hd : d < h.size) :
    SameAt h.declarations (h.startingWith d).declarations d 0 := by
  have hdecl : h.declarations[d]? = some h.declarations[d] := List.getElem?_eq_getElem hd
  exact ⟨_, hdecl, by simp [startingWith, hdecl]⟩

/-- On a cycle of declarations that do not write their own names, one lists itself when it is
loaded first, and does not in the given order. -/
theorem exists_inheritanceOf_ne (distinct : h.Distinct) (hown : ∀ d, ¬ h.Writes d d)
    (hcycle : TransGen h.Extends d d) :
    ∃ m, TransGen h.Extends d m ∧ TransGen h.Extends m d ∧
      (h.startingWith m).inheritanceOf 0 ≠ h.inheritanceOf m := by
  obtain ⟨m, hdm, hmd, hlists⟩ := exists_not_listsItself distinct hown hcycle
  have hm : m < h.size := lt_size_of_transGen hmd
  have hp := startingWith_perm hm
  have hsame := sameAt_startingWith hm
  have distinct' : (h.startingWith m).Distinct := distinct.perm hp
  obtain ⟨m', hm', hloop⟩ := transGen_sameAt hsame distinct hp (hmd.trans hdm)
  obtain rfl : 0 = m' := hsame.inj distinct'.nodup hm'
  refine ⟨m, hdm, hmd, fun heq => hlists ?_⟩
  have hfirst := listsItself_first distinct' hloop
  rwa [ListsItself, nameOf_sameAt hsame, heq] at hfirst

/-- Every declaration inherits the same names in every order of the declarations. -/
def OrderFree (h : Hierarchy) : Prop :=
  ∀ h' : Hierarchy, h'.declarations.Perm h.declarations →
    ∀ d d', SameAt h.declarations h'.declarations d d' → h'.inheritanceOf d' = h.inheritanceOf d

/-- Declarations with distinct names, in any two orders. The search from one of them alone finds
the same names in both. So does the linearization, which keeps what it has found, for all
declarations from which no cycle is met. But if none writes its own name, every cycle makes it
depend on the order. -/
theorem linearize_in_any_order (distinct : h.Distinct) :
    (∀ h' : Hierarchy, h'.declarations.Perm h.declarations →
      ∀ d d', SameAt h.declarations h'.declarations d d' →
        h'.lineage d' = h.lineage d ∧
          (h.AcyclicFrom d → h'.inheritanceOf d' = h.inheritanceOf d)) ∧
    ((∀ d, ¬ h.Writes d d) → (h.OrderFree ↔ h.Acyclic)) := by
  constructor
  · intro h' hp d d' hd
    exact ⟨lineage_sameAt hd distinct hp, inheritanceOf_sameAt distinct hp hd⟩
  · intro hown
    constructor
    · intro hfree d hcycle
      obtain ⟨m, -, hmd, hne⟩ := exists_inheritanceOf_ne distinct hown hcycle
      have hm : m < h.size := lt_size_of_transGen hmd
      exact hne (hfree _ (startingWith_perm hm) m 0 (sameAt_startingWith hm))
    · intro acyclic h' hp d d' hd
      exact inheritanceOf_sameAt distinct hp hd (acyclic.acyclicFrom d)

/-- Three contracts, each a base of the one before it and the first of the last, and one apart. -/
def ring : Hierarchy where
  declarations :=
    [⟨"A", .contract, "Ring.sol", 1, ["B"], []⟩, ⟨"B", .contract, "Ring.sol", 2, ["C"], []⟩,
      ⟨"C", .contract, "Ring.sol", 3, ["A"], []⟩, ⟨"D", .contract, "Ring.sol", 4, ["E"], []⟩]

/-- Loaded after the second contract, the first no longer inherits from the third. -/
theorem ring_depends_on_order :
    ring.Distinct ∧ (ring.startingWith 1).declarations.Perm ring.declarations ∧
      ring.linearize.map (fun c => (c.name, c.inheritance)) =
        [("A", ["B", "C", "A"]), ("B", ["C", "A"]), ("C", ["A"]), ("D", ["E"])] ∧
      (ring.startingWith 1).linearize.map (fun c => (c.name, c.inheritance)) =
        [("B", ["C", "A", "B"]), ("A", ["B"]), ("C", ["A", "B"]), ("D", ["E"])] := by
  refine ⟨by decide, startingWith_perm (by decide), by decide +kernel, by decide +kernel⟩

theorem linearize_in_any_order_ring :
    ring.Distinct ∧ ring.AcyclicFrom 3 ∧ (∀ d, ¬ ring.Writes d d) ∧
      (ring.startingWith 1).inheritanceOf 3 = ring.inheritanceOf 3 ∧
      (ring.startingWith 1).lineage 1 = ring.lineage 0 ∧ ring.lineage 0 = ["B", "C", "A"] ∧
      ¬ ring.Acyclic ∧ ¬ ring.OrderFree := by
  have distinct : ring.Distinct := by decide
  have hp : (ring.startingWith 1).declarations.Perm ring.declarations :=
    startingWith_perm (by decide)
  have hnone : ∀ b, ¬ ring.Extends 3 b := by
    rintro b ⟨base, hbase, hr⟩
    obtain rfl : base = "E" := by simpa [basesOf, ring] using hbase
    have hapart : ring.resolve? 3 "E" = none := by decide
    rw [hapart] at hr
    cases hr
  have hapart : ring.AcyclicFrom 3 := by
    intro e he hcycle
    rcases reflTransGen_iff_eq_or_transGen.mp he with rfl | he
    · obtain ⟨b, hb, -⟩ := TransGen.head'_iff.mp hcycle
      exact hnone b hb
    · obtain ⟨b, hb, -⟩ := TransGen.head'_iff.mp he
      exact hnone b hb
  have hown : ∀ d, ¬ ring.Writes d d := by
    intro d hw
    have hsmall : ∀ d < 4, ¬ ring.Writes d d := by decide
    exact hsmall d hw.lt_size hw
  have hcycle : ¬ ring.Acyclic := by
    have hab : ring.Extends 0 1 := ⟨"B", by decide, by decide⟩
    have hbc : ring.Extends 1 2 := ⟨"C", by decide, by decide⟩
    have hca : ring.Extends 2 0 := ⟨"A", by decide, by decide⟩
    exact fun acyclic => acyclic 0 (.tail (.tail (.single hab) hbc) hca)
  obtain ⟨hany, hiff⟩ := linearize_in_any_order distinct
  obtain ⟨-, hlast⟩ := hany _ hp 3 3 ⟨_, rfl, rfl⟩
  obtain ⟨hfirst, -⟩ := hany _ hp 0 1 ⟨_, rfl, rfl⟩
  exact ⟨distinct, hapart, hown, hlast hapart, hfirst, by decide +kernel, hcycle,
    fun hfree => hcycle ((hiff hown).mp hfree)⟩

end TokenAudit.Hierarchy
