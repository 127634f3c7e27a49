import Mathlib.Data.List.Basic
import TokenAudit.Proofs.Hierarchy.Climb

/-! Linearization depends on nothing but the bases that are written and the declarations they mean.
What comes behind the declarations of a hierarchy makes no difference to them as long as none of
their bases means any of it. -/

namespace TokenAudit.Hierarchy

variable {h h' : Hierarchy} {d : Nat}

/-- The declarations of `h` stand first in `h'` with the same bases, which mean the same. -/
structure Continues (h h' : Hierarchy) : Prop where
  size_le : h.size ≤ h'.size
  basesOf_eq : ∀ d < h.size, h'.basesOf d = h.basesOf d
  resolve?_eq : ∀ d, ∀ base ∈ h.basesOf d, h'.resolve? d base = h.resolve? d base

namespace Continues

variable (hh : h.Continues h')

include hh

/-- The induction is on the climb, which goes from declarations of `h` to declarations of `h`. -/
theorem climb {bases : List String} {p q : Progress} {rows : List (List String)}
    (hc : Climb h d bases p q rows) (hsub : bases ⊆ h.basesOf d) : Climb h' d bases p q rows := by
  induction hc with
  | done => exact .done
  | leaf hr _ ih =>
    obtain ⟨hbase, hbases⟩ := List.cons_subset.mp hsub
    exact .leaf ((hh.resolve?_eq _ _ hbase).trans hr) (ih hbases)
  | known hr hk _ ih =>
    obtain ⟨hbase, hbases⟩ := List.cons_subset.mp hsub
    exact .known ((hh.resolve?_eq _ _ hbase).trans hr) hk (ih hbases)
  | @visit d base bases b p q r above rows names hr hk _ hn _ ihb ihc =>
    obtain ⟨hbase, hbases⟩ := List.cons_subset.mp hsub
    have hb : Climb h' b (h.basesOf b).reverse (p.enter b) q above :=
      ihb fun n hn => List.mem_reverse.mp hn
    rw [← hh.basesOf_eq b (lt_size_of_resolve? hr)] at hb hn
    exact .visit ((hh.resolve?_eq _ _ hbase).trans hr) hk hb hn (ihc hbases)

theorem visit {p q : Progress} {names : List String} (hd : d < h.size)
    (hv : Visit h d p q names) : Visit h' d p q names := by
  cases hv with
  | known hk => exact .known hk
  | climb hk hb hn =>
    have hb' := hh.climb hb fun n hn => List.mem_reverse.mp hn
    rw [← hh.basesOf_eq d hd] at hb' hn
    exact .climb hk hb' hn

theorem ancestors_eq {p : Progress} (hd : d < h.size) (hp : p.underway = []) :
    h'.ancestors (h'.size + 1) d p = h.ancestors (h.size + 1) d p := by
  have hv := hh.visit hd (ancestors_visit (hp ▸ roomy_start) hd)
  have hv' : Visit h' d p _ _ :=
    ancestors_visit (hp ▸ roomy_start) (Nat.lt_of_lt_of_le hd hh.size_le)
  obtain ⟨hprogress, hnames⟩ := hv'.unique hv
  exact Prod.ext hprogress hnames

end Continues

theorem exists_foldl_linearizeNext (h : Hierarchy) (ds : List Nat)
    (acc : List (Nat × List String) × List (List String)) :
    ∃ more : List (List String), more.length = ds.length ∧
      (ds.foldl h.linearizeNext acc).2 = acc.2 ++ more := by
  induction ds generalizing acc with
  | nil => exact ⟨[], rfl, by simp⟩
  | cons d ds ih =>
    obtain ⟨more, hlength, hfold⟩ := ih (h.linearizeNext acc d)
    refine ⟨(h.ancestors (h.size + 1) d { found := acc.1 }).2 :: more, by simp [hlength], ?_⟩
    rw [List.foldl_cons, hfold]
    simp [linearizeNext]

theorem length_lineages (h : Hierarchy) : h.lineages.length = h.size := by
  obtain ⟨names, hlength, hfold⟩ := exists_foldl_linearizeNext h (List.range h.size) ([], [])
  rw [lineages_eq_foldl, hfold, List.nil_append, hlength, List.length_range]

/-- What follows the declarations of a hierarchy does not change the names above them. -/
theorem Continues.prefix_lineages (hh : h.Continues h') : h.lineages <+: h'.lineages := by
  obtain ⟨k, hk⟩ := Nat.exists_eq_add_of_le hh.size_le
  have hfirst : (List.range h.size).foldl h'.linearizeNext ([], []) =
      (List.range h.size).foldl h.linearizeNext ([], []) := by
    refine List.foldl_ext _ _ _ fun acc d hd => ?_
    rw [linearizeNext, linearizeNext, hh.ancestors_eq (List.mem_range.mp hd) rfl]
  rw [lineages_eq_foldl, lineages_eq_foldl, hk, List.range_add, List.foldl_append, hfirst]
  obtain ⟨more, -, hfold⟩ := exists_foldl_linearizeNext h' ((List.range k).map (h.size + ·)) _
  exact ⟨more, hfold.symm⟩

end TokenAudit.Hierarchy
