import TokenAudit.Proofs.Files.Tree

/-! Paths with the same components lead to the same place, as far as both can be used. -/

namespace TokenAudit

namespace PathComponent

/-- The word that a component adds to what is followed; the start of a path adds none. -/
def word? : PathComponent → Option String
  | root | here => none
  | parent => some ".."
  | name s => some s

end PathComponent

namespace Path

variable {p : Path}

/-- A part that is not passed over. -/
def isStep (name : String) : Bool := ¬ (name = "" ∨ name = ".")

theorem isStep_iff {name : String} : isStep name = true ↔ ¬ (name = "" ∨ name = ".") :=
  decide_eq_true_iff

/-- The parts of a path that are not passed over. -/
def steps (p : Path) : List String := ((parts p.text.toList).map String.ofList).filter isStep

theorem filter_ofList (ps : List (List Char)) :
    (ps.map String.ofList).filter isStep = (ofParts ps).filterMap PathComponent.word? := by
  induction ps with
  | nil => rfl
  | cons cs ps ih =>
    have hsplit : ofParts (cs :: ps) = ofParts [cs] ++ ofParts ps := ofParts_append [cs] ps
    rw [hsplit, List.filterMap_append, ← ih, List.map_cons]
    by_cases hblank : cs = [] ∨ cs = ['.']
    · rcases hblank with rfl | rfl <;> rfl
    rw [not_or] at hblank
    have hempty : ¬ String.ofList cs = "" := by
      rw [← String.toList_inj, String.toList_ofList]
      exact hblank.1
    have hhere : ¬ String.ofList cs = "." := by
      rw [← String.toList_inj, String.toList_ofList]
      exact hblank.2
    have hstep : isStep (String.ofList cs) = true := isStep_iff.mpr (not_or.mpr ⟨hempty, hhere⟩)
    rw [List.filter_cons_of_pos hstep]
    by_cases hparent : cs = ['.', '.']
    · rw [hparent]
      rfl
    · simp [ofParts, hblank, hparent, PathComponent.word?]

theorem steps_eq (p : Path) : p.steps = p.components.filterMap PathComponent.word? := by
  unfold steps components
  rw [filter_ofList]
  generalize p.text.toList = cs
  fun_cases lead cs with
  | case1 r => rfl
  | case2 => rfl
  | case3 r => rfl
  | case4 => rfl

theorem isAbsolute_iff : p.isAbsolute = true ↔ p.components.head? = some .root := by
  have hnone (ps : List (List Char)) : (ofParts ps).head? ≠ some .root := by
    intro h
    obtain ⟨cs, -, hcs⟩ := List.mem_filterMap.mp (List.mem_of_mem_head? h)
    split_ifs at hcs <;> cases hcs
  unfold isAbsolute components
  generalize p.text.toList = cs
  fun_cases lead cs with
  | case1 r => simp [leadComponents]
  | case2 => simp [leadComponents]
  | case3 r => simp [leadComponents]
  | case4 _ hroot =>
    constructor
    · intro h
      cases cs with
      | nil => cases h
      | cons c r =>
        have hc : c = '/' := by simpa using h
        exact absurd (by rw [hc]) (hroot r)
    · intro h
      exact absurd h (hnone _)

end Path

namespace FileTree

open TokenAudit.Path

variable {t : FileTree} {names : List String} {place place' : Place}

theorem exists_follow_cons {name : String} {rest : List String}
    (h : names.filter isStep = name :: rest) : ∃ more, more.filter isStep = rest ∧
      ∀ links location, t.follow links location names = t.follow links location (name :: more) := by
  induction names with
  | nil => cases h
  | cons n names ih =>
    by_cases hstep : isStep n = true
    · rw [List.filter_cons_of_pos hstep] at h
      obtain ⟨hname, hrest⟩ := List.cons.inj h
      exact ⟨names, hrest, fun links location => by rw [hname]⟩
    · rw [List.filter_cons_of_neg hstep] at h
      obtain ⟨more, hmore, hsame⟩ := ih h
      have hskip : n = "" ∨ n = "." := not_not.mp (mt isStep_iff.mpr hstep)
      refine ⟨more, hmore, fun links location => ?_⟩
      rw [follow_skip hskip, hsame]

theorem follow_of_filter_eq_nil (h : names.filter isStep = []) (links : Nat)
    (location : List String) : t.follow links location names = .ok ⟨location, true⟩ := by
  induction names with
  | nil => rw [follow]
  | cons n names ih =>
    obtain ⟨hn, hnames⟩ := List.forall_mem_cons.mp (List.filter_eq_nil_iff.mp h)
    have hskip : n = "" ∨ n = "." := not_not.mp (mt isStep_iff.mpr hn)
    rw [follow_skip hskip]
    exact ih (List.filter_eq_nil_iff.mpr hnames)

/-- Parts that are passed over do not decide where names lead. -/
theorem follow_unique (links : Nat) (location names names' : List String)
    (hsame : names.filter isStep = names'.filter isStep)
    (h : t.follow links location names = .ok place)
    (h' : t.follow links location names' = .ok place') : place = place' := by
  match names with
  | [] =>
    rw [follow] at h
    rw [follow_of_filter_eq_nil hsame.symm] at h'
    exact Except.ok.inj (h.symm.trans h')
  | name :: rest =>
    by_cases hstep : isStep name = true
    · rw [List.filter_cons_of_pos hstep] at hsame
      obtain ⟨more, hmore, hfirst⟩ := @exists_follow_cons t names' name _ hsame.symm
      rw [hfirst] at h'
      rcases follow_cons_cases t links location name with
        ⟨links', location', between, hless, hgo⟩ | ⟨⟨e, hstop⟩, -⟩
      · rw [hgo] at h h'
        refine follow_unique links' location' (between ++ rest) (between ++ more) ?_ h h'
        rw [List.filter_append, List.filter_append, hmore]
      · have hrest : rest = [] := by
          by_contra hne
          rw [hstop rest hne] at h
          cases h
        have hnone : more = [] := by
          by_contra hne
          rw [hstop more hne] at h'
          cases h'
        rw [hrest] at h
        rw [hnone] at h'
        exact Except.ok.inj (h.symm.trans h')
    · rw [List.filter_cons_of_neg hstep] at hsame
      rw [follow_skip (not_not.mp (mt isStep_iff.mpr hstep))] at h
      exact follow_unique links location rest names' hsame h h'
termination_by (links, names.length)
decreasing_by
  · rcases hless with hlt | ⟨rfl, rfl⟩
    · exact Prod.Lex.left _ _ hlt
    · exact Prod.Lex.right _ (by simp)
  · exact Prod.Lex.right _ (by simp)

/-- Two spellings of a path lead to the same place, unless one of them cannot be used. -/
theorem locate_unique {p q : Path} (hsame : p.components = q.components)
    (hp : t.locate p = .ok place) (hq : t.locate q = .ok place') : place = place' := by
  have hsteps : p.steps = q.steps := by
    rw [steps_eq, steps_eq, hsame]
  have hstart : p.isAbsolute = q.isAbsolute := by
    rw [Bool.eq_iff_iff, isAbsolute_iff, isAbsolute_iff, hsame]
  obtain ⟨-, hp⟩ := locate_eq_ok_iff.mp hp
  obtain ⟨-, hq⟩ := locate_eq_ok_iff.mp hq
  rw [← hstart] at hq
  exact follow_unique _ _ _ _ hsteps hp hq

end FileTree

end TokenAudit
