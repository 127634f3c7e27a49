import Mathlib.Order.Compare
import TokenAudit.Proofs.Files.Path

/-! The order of paths by their components is linear, up to spellings with equal components. -/

namespace TokenAudit

namespace PathComponent

variable {a b : PathComponent}

def spelling : PathComponent → String
  | name s => s
  | _ => ""

theorem compare_eq_compareLex :
    PathComponent.compare = compareLex (compareOn rank) (compareOn spelling) := by
  funext a b
  cases a <;> cases b <;> rfl

instance : Std.TransCmp PathComponent.compare := by
  rw [compare_eq_compareLex]
  infer_instance

theorem eq_of_compare (h : a.compare b = .eq) : a = b := by
  rw [compare_eq_compareLex, compareLex_eq_eq] at h
  obtain ⟨hrank, hspelling⟩ := h
  have hsame : a.spelling = b.spelling := Std.LawfulEqCmp.eq_of_compare hspelling
  have hkind : a.rank = b.rank := Std.LawfulEqCmp.eq_of_compare hrank
  cases a <;> cases b <;> simp_all [rank, spelling]

instance : Std.LawfulEqCmp PathComponent.compare := ⟨eq_of_compare⟩

end PathComponent

namespace Path

variable {p q r : Path}

theorem compareComponents_eq_compareLex :
    compareComponents = List.compareLex PathComponent.compare := by
  funext as bs
  induction as generalizing bs with
  | nil => cases bs <;> rfl
  | cons a as ih =>
    cases bs with
    | nil => rfl
    | cons b bs =>
      rw [compareComponents, List.compareLex, ih]
      cases a.compare b <;> rfl

instance : Std.TransCmp compareComponents := by
  rw [compareComponents_eq_compareLex]
  infer_instance

instance : Std.LawfulEqCmp compareComponents := by
  rw [compareComponents_eq_compareLex]
  infer_instance

theorem not_before_of_before (hpq : p.Before q) : ¬ q.Before p := by
  have hswap : compareComponents q.components p.components =
      (compareComponents p.components q.components).swap := Std.OrientedCmp.eq_swap
  intro hqp
  rw [Before] at hpq hqp
  rw [hswap, hpq] at hqp
  cases hqp

instance : Std.Irrefl Before := ⟨not_before_self⟩

instance : Std.Antisymm Before := ⟨fun _ _ hpq hqp => absurd hqp (not_before_of_before hpq)⟩

theorem le_iff_isLE :
    le p q = true ↔ (compareComponents p.components q.components).isLE = true := by
  unfold le
  cases compareComponents p.components q.components <;> decide

theorem le_trans (hpq : le p q = true) (hqr : le q r = true) : le p r = true := by
  rw [le_iff_isLE] at *
  exact Std.TransCmp.isLE_trans hpq hqr

theorem le_total (p q : Path) : (le p q || le q p) = true := by
  have hswap : compareComponents q.components p.components =
      (compareComponents p.components q.components).swap := Std.OrientedCmp.eq_swap
  rw [Bool.or_eq_true, le_iff_isLE, le_iff_isLE, hswap]
  cases compareComponents p.components q.components <;> decide

theorem components_eq_of_le (hpq : le p q = true) (hqp : le q p = true) :
    p.components = q.components := by
  rw [le_iff_isLE] at hpq hqp
  exact Std.LawfulEqCmp.eq_of_compare (Std.OrientedCmp.isLE_antisymm hpq hqp)

theorem before_of_le (hle : le p q = true) (hne : p.components ≠ q.components) : p.Before q := by
  rw [le_iff_isLE] at hle
  unfold Before
  cases hc : compareComponents p.components q.components with
  | lt => rfl
  | eq => exact absurd (Std.LawfulEqCmp.eq_of_compare hc) hne
  | gt =>
    rw [hc] at hle
    cases hle

end Path

end TokenAudit
