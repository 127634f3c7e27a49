import TokenAudit.Proofs.Files.Locations
import TokenAudit.Files.IgnoreRules

/-! Where no file holds a rule, the rules say nothing. -/

namespace TokenAudit

variable {t : FileTree} {r : IgnoreRules} {l : IgnoreLevel} {path directory target : Path}
variable {isDirectory : Bool}

theorem IgnoreRule.ofFile_nil : IgnoreRule.ofFile [] = [] := by
  decide +kernel

namespace FileTree

/-- None of the files holds a rule on which files to leave out. -/
def Ruleless (t : FileTree) : Prop :=
  ∀ location bytes, t.entry? location = some (.file bytes) → IgnoreRule.ofFile bytes = []

theorem Ruleless.ofFile_read (h : t.Ruleless) {bytes : List UInt8} (hread : t.read path = .ok bytes) :
    IgnoreRule.ofFile bytes = [] := by
  obtain ⟨place, -, -, hentry⟩ := stat_eq_ok_iff.mp (read_eq_ok_iff.mp hread)
  exact h _ _ hentry

end FileTree

namespace IgnoreLevel

theorem rules_ofDirectory (h : t.Ruleless) (directory : Path) :
    ∀ rules ∈ (ofDirectory t directory).rules, rules = [] := by
  intro rules hrules
  obtain ⟨f, -, rfl⟩ := List.mem_map.mp hrules
  split
  · next hread => exact h.ofFile_read hread
  · rfl

theorem verdict?_eq_none (h : ∀ rules ∈ l.rules, rules = []) (kind : Nat) (path : List Char) :
    l.verdict? kind path isDirectory = none := by
  unfold verdict?
  split
  · rfl
  · rfl
  · next rules hne hrules => exact absurd (h _ (List.mem_of_getElem? hrules)) (by simpa using hne)

end IgnoreLevel

namespace IgnoreRules

/-- No level has a rule. -/
def Silent (r : IgnoreRules) : Prop :=
  ∀ l ∈ r.inner ++ r.outer, ∀ rules ∈ l.rules, rules = []

theorem silent_ofTarget (h : t.Ruleless) (target : Path) : (ofTarget t target).Silent := by
  intro l hl
  rcases List.mem_append.mp hl with hl | hl
  · obtain rfl := List.mem_singleton.mp hl
    exact IgnoreLevel.rules_ofDirectory h target
  · obtain ⟨location, -, rfl⟩ := List.mem_map.mp hl
    exact IgnoreLevel.rules_ofDirectory h _

theorem Silent.enter (hr : r.Silent) (h : t.Ruleless) (directory : Path) :
    (r.enter t directory).Silent := by
  intro l hl
  rcases List.mem_cons.mp hl with rfl | hl
  · exact IgnoreLevel.rules_ofDirectory h directory
  · exact hr l hl

theorem Silent.verdict? (hr : r.Silent) (path : Path) (isDirectory : Bool) :
    r.verdict? path isDirectory = none := by
  unfold IgnoreRules.verdict?
  rw [List.findSome?_eq_none_iff]
  intro kind _
  have hinner : ∀ cs, r.inner.findSome? (·.verdict? kind cs isDirectory) = none := fun cs =>
    List.findSome?_eq_none_iff.mpr fun l hl =>
      IgnoreLevel.verdict?_eq_none (hr l (List.mem_append_left _ hl)) kind cs
  have houter : ∀ cs, r.outer.findSome? (·.verdict? kind cs isDirectory) = none := fun cs =>
    List.findSome?_eq_none_iff.mpr fun l hl =>
      IgnoreLevel.verdict?_eq_none (hr l (List.mem_append_right _ hl)) kind cs
  rw [hinner, houter]
  rfl

end IgnoreRules

end TokenAudit
