import TokenAudit.Proofs.Files.Locations

/-! Where paths lead that meet no link, as a search along their names. -/

namespace TokenAudit.FileTree

variable {t : FileTree} {location found names : List String} {p : Path} {e : Entry}

/-- The location that names lead to from a directory, if something is there and no link is on the
way. -/
def walk? (t : FileTree) (location : List String) : List String → Option (List String)
  | [] => some location
  | name :: rest =>
    if name = "" ∨ name = "." then walk? t location rest
    else if name = ".." then walk? t location.dropLast rest
    else if maxName < name.utf8ByteSize then none
    else
      match t.entry? (location ++ [name]) with
      | some (.directory _) => walk? t (location ++ [name]) rest
      | some (.file _) => if rest.isEmpty then some (location ++ [name]) else none
      | _ => none

/-- Where a path leads that can be used and meets no link. -/
def whereabouts? (t : FileTree) (p : Path) : Option (List String) :=
  if ¬ p.text.toList.contains '\x00' = true ∧ ¬ p.text.isEmpty = true ∧
      ¬ maxPath ≤ p.text.utf8ByteSize then
    t.walk? (if p.isAbsolute then [] else t.workingDirectory)
      ((Path.parts p.text.toList).map String.ofList)
  else none

theorem follow_of_walk? (h : t.walk? location names = some found) (links : Nat) :
    t.follow links location names = .ok ⟨found, true⟩ := by
  induction names generalizing location with
  | nil =>
    rw [walk?] at h
    rw [follow, Option.some.inj h]
  | cons name rest ih =>
    rw [walk?] at h
    by_cases hskip : name = "" ∨ name = "."
    · rw [if_pos hskip] at h
      rw [follow_skip hskip, ih h]
    by_cases hparent : name = ".."
    · rw [if_neg hskip, if_pos hparent] at h
      rw [hparent, follow_parent, ih h]
    by_cases hlong : maxName < name.utf8ByteSize
    · rw [if_neg hskip, if_neg hparent, if_pos hlong] at h
      cases h
    have hn : Plain name := ⟨hskip, hparent, hlong⟩
    rw [if_neg hskip, if_neg hparent, if_neg hlong] at h
    split at h
    · next children he => rw [follow_enter hn ⟨children, he⟩, ih h]
    · next bytes he =>
      rw [follow_file hn he]
      split_ifs at h ⊢
      rw [Option.some.inj h]
    · cases h

theorem locate_of_whereabouts? (h : t.whereabouts? p = some found) :
    t.locate p = .ok ⟨found, true⟩ := by
  rw [whereabouts?] at h
  split at h
  · next husable => exact locate_eq_ok_iff.mpr ⟨husable, follow_of_walk? h maxLinks⟩
  · cases h

theorem stat_of_whereabouts? (h : t.whereabouts? p = some found) (he : t.entry? found = some e) :
    t.stat p = .ok e :=
  stat_eq_ok_iff.mpr ⟨_, locate_of_whereabouts? h, rfl, he⟩

theorem canonicalize_of_whereabouts? (h : t.whereabouts? p = some found) :
    t.canonicalize p = .ok (pathOf found) :=
  canonicalize_eq_ok_iff.mpr ⟨_, locate_of_whereabouts? h, rfl, rfl⟩

end TokenAudit.FileTree
