import TokenAudit.Proofs.Files.Locations
import TokenAudit.Proofs.Files.Walk
import TokenAudit.Proofs.Rule.OriginUse

/-! Scan roots are walked one after another, each on its own. A file is listed once for each of them
that leads to it, whatever they are called and however they lie in one another. -/

namespace TokenAudit

namespace FileTree

variable {t : FileTree} {location : List String} {p : Path}

/-- The location of the file or directory that a path leads to, if there is one. -/
def placeOf? (t : FileTree) (p : Path) : Option (List String) := (t.resolve p).toOption

theorem placeOf?_eq_some_iff : t.placeOf? p = some location ↔ t.locate p = .ok ⟨location, true⟩ := by
  unfold placeOf? resolve
  cases t.locate p with
  | error e => exact ⟨nofun, nofun⟩
  | ok place =>
    obtain ⟨found, present⟩ := place
    cases present with
    | false => exact ⟨nofun, fun h => by cases Except.ok.inj h⟩
    | true =>
      constructor
      · intro h
        obtain rfl : found = location := Option.some.inj h
        rfl
      · intro h
        obtain rfl : found = location := congrArg Place.location (Except.ok.inj h)
        rfl

end FileTree

namespace OriginUse

open FileTree

variable {t : FileTree} {root : Path} {dir dir' : String} {dirs location : List String}

/-- Through the scan root `dir` the file at `location` is found to use the origin. -/
def FoundThrough (t : FileTree) (root : Path) (dir : String) (location : List String) : Prop :=
  ∃ names bytes, UsesOrigin t (root.join ⟨dir⟩) names bytes ∧
    t.placeOf? ((root.join ⟨dir⟩).below names) = some location

/-- The paths that the scan lists, before they are put in words. -/
def hits (t : FileTree) (root : Path) (dirs : List String) : List Path :=
  dirs.flatMap (hitsIn t root)

theorem IsSource.ne_nil {names : List String} (h : IsSource names) : names ≠ [] := by
  obtain ⟨way, stem, -, rfl⟩ := h
  simp

/-- A file that is found below a scan root lies below the directory to which that root leads. -/
theorem UsesOrigin.placeOf? {base : Path} {names : List String} {bytes : List UInt8}
    (hw : t.root.WellFormed) (h : UsesOrigin t base names bytes) :
    ∃ top, t.placeOf? base = some top ∧ t.placeOf? (base.below names) = some (top ++ names) := by
  obtain ⟨directory, hs, hf⟩ := h.file
  obtain ⟨read, hread⟩ := h.readable
  obtain ⟨place, hl, hpresent, hentry⟩ := stat_eq_ok_iff.mp hs
  obtain ⟨place', hl', -, -⟩ := stat_eq_ok_iff.mp (read_eq_ok_iff.mp hread)
  obtain rfl := locate_below hw hl hpresent hentry hf h.source.ne_nil hl'
  obtain ⟨top, present⟩ := place
  obtain rfl : present = true := hpresent
  exact ⟨top, placeOf?_eq_some_iff.mpr hl, placeOf?_eq_some_iff.mpr hl'⟩

theorem isDirectory_of_usesOrigin {base : Path} {names : List String} {bytes : List UInt8}
    (h : UsesOrigin t base names bytes) : t.isDirectory base = true := by
  obtain ⟨directory, hs, hf⟩ := h.file
  obtain ⟨n, names, rfl⟩ := List.exists_cons_of_ne_nil h.source.ne_nil
  obtain ⟨children, -, rfl, -⟩ := Entry.at?_cons_eq_file.mp hf
  exact isDirectory_iff.mpr ⟨children, hs⟩

theorem mem_hitsIn_iff (hw : t.root.WellFormed) {path : Path} :
    path ∈ hitsIn t root dir ↔
      ∃ names bytes, UsesOrigin t (root.join ⟨dir⟩) names bytes ∧
        path = (root.join ⟨dir⟩).below names := by
  by_cases hd : t.isDirectory (root.join ⟨dir⟩) = true
  · exact (finds_hitsIn hw root dir hd).mem_iff path
  · rw [hitsIn_eq_nil hd]
    refine ⟨nofun, ?_⟩
    rintro ⟨names, bytes, h, -⟩
    exact absurd (isDirectory_of_usesOrigin h) hd

theorem mem_places_hitsIn_iff (hw : t.root.WellFormed) :
    some location ∈ (hitsIn t root dir).map t.placeOf? ↔ FoundThrough t root dir location := by
  rw [List.mem_map]
  constructor
  · rintro ⟨path, hpath, hplace⟩
    obtain ⟨names, bytes, h, rfl⟩ := (mem_hitsIn_iff hw).mp hpath
    exact ⟨names, bytes, h, hplace⟩
  · rintro ⟨names, bytes, h, hplace⟩
    exact ⟨_, (mem_hitsIn_iff hw).mpr ⟨names, bytes, h, rfl⟩, hplace⟩

/-- Through one scan root no file is found twice. -/
theorem nodup_places_hitsIn (hw : t.root.WellFormed) :
    ((hitsIn t root dir).map t.placeOf?).Nodup := by
  by_cases hd : t.isDirectory (root.join ⟨dir⟩) = true
  · have hordered := (finds_hitsIn hw root dir hd).ordered
    refine List.pairwise_map.mpr (hordered.imp_of_mem fun {p q} hp hq hbefore hsame => ?_)
    obtain ⟨names, bytes, h, rfl⟩ := (mem_hitsIn_iff hw).mp hp
    obtain ⟨names', bytes', h', rfl⟩ := (mem_hitsIn_iff hw).mp hq
    obtain ⟨top, htop, hplace⟩ := h.placeOf? hw
    obtain ⟨top', htop', hplace'⟩ := h'.placeOf? hw
    rw [hplace, hplace'] at hsame
    obtain rfl : top = top' := Option.some.inj (htop.symm.trans htop')
    obtain rfl := List.append_cancel_left (Option.some.inj hsame)
    exact Path.not_before_self _ hbefore
  · rw [hitsIn_eq_nil hd]
    exact List.nodup_nil

theorem exists_place_of_mem_hitsIn (hw : t.root.WellFormed) {path : Path}
    (h : path ∈ hitsIn t root dir) : ∃ location, t.placeOf? path = some location := by
  obtain ⟨names, bytes, huses, rfl⟩ := (mem_hitsIn_iff hw).mp h
  obtain ⟨top, -, hplace⟩ := huses.placeOf? hw
  exact ⟨_, hplace⟩

open Classical in
/-- A file is listed once for each scan root that leads to it. -/
theorem count_places_hits (hw : t.root.WellFormed) (root : Path) (dirs location : List String) :
    ((hits t root dirs).map t.placeOf?).count (some location) =
      dirs.countP fun dir => FoundThrough t root dir location := by
  induction dirs with
  | nil => rfl
  | cons dir dirs ih =>
    have hfirst : ((hitsIn t root dir).map t.placeOf?).count (some location) =
        if FoundThrough t root dir location then 1 else 0 := by
      rw [(nodup_places_hitsIn hw).count]
      simp only [mem_places_hitsIn_iff hw]
    have hcons : hits t root (dir :: dirs) = hitsIn t root dir ++ hits t root dirs := rfl
    rw [hcons, List.map_append, List.count_append, ih, hfirst, List.countP_cons]
    simp only [decide_eq_true_eq]
    omega

theorem nodup_places_hits_iff (hw : t.root.WellFormed) :
    ((hits t root dirs).map t.placeOf?).Nodup ↔ dirs.Pairwise fun dir dir' =>
      ∀ location, ¬ (FoundThrough t root dir location ∧ FoundThrough t root dir' location) := by
  rw [hits, List.map_flatMap, List.nodup_flatMap]
  refine (and_iff_right fun dir _ => nodup_places_hitsIn hw).trans ?_
  have hdisjoint : ∀ dir dir', (Function.onFun List.Disjoint fun dir =>
      (hitsIn t root dir).map t.placeOf?) dir dir' ↔
        ∀ location, ¬ (FoundThrough t root dir location ∧ FoundThrough t root dir' location) := by
    intro dir dir'
    constructor
    · intro h location ⟨hfound, hfound'⟩
      exact h ((mem_places_hitsIn_iff hw).mpr hfound) ((mem_places_hitsIn_iff hw).mpr hfound')
    · intro h place hplace hplace'
      obtain ⟨path, hpath, rfl⟩ := List.mem_map.mp hplace
      obtain ⟨location, hlocation⟩ := exists_place_of_mem_hitsIn hw hpath
      rw [hlocation] at hplace hplace'
      exact h location ⟨(mem_places_hitsIn_iff hw).mp hplace, (mem_places_hitsIn_iff hw).mp hplace'⟩
  exact ⟨fun h => h.imp fun {dir dir'} => (hdisjoint dir dir').mp,
    fun h => h.imp fun {dir dir'} => (hdisjoint dir dir').mpr⟩

/-- Neither of two scan roots leads to a directory in which the other lies. -/
def Apart (t : FileTree) (root : Path) (dir dir' : String) : Prop :=
  ∀ top top', t.placeOf? (root.join ⟨dir⟩) = some top → t.placeOf? (root.join ⟨dir'⟩) = some top' →
    ¬ top <+: top' ∧ ¬ top' <+: top

theorem Apart.not_foundThrough (hw : t.root.WellFormed) (h : Apart t root dir dir')
    (location : List String) :
    ¬ (FoundThrough t root dir location ∧ FoundThrough t root dir' location) := by
  rintro ⟨⟨names, bytes, huses, hplace⟩, names', bytes', huses', hplace'⟩
  obtain ⟨top, htop, hbelow⟩ := huses.placeOf? hw
  obtain ⟨top', htop', hbelow'⟩ := huses'.placeOf? hw
  obtain rfl := Option.some.inj (hbelow.symm.trans hplace)
  have hsame : top' ++ names' = top ++ names := Option.some.inj (hbelow'.symm.trans hplace')
  have hprefix : top' <+: top ++ names := ⟨names', hsame⟩
  obtain ⟨hout, hin⟩ := h top top' htop htop'
  exact (List.prefix_or_prefix_of_prefix (List.prefix_append top names) hprefix).elim hout hin

/-- The check lists a file once for each scan root that leads to it, and nothing else. So no file is
listed twice exactly if no two scan roots lead to one file that uses the origin, as when no scan
root leads into a directory to which another leads. -/
theorem scan_lists_by_root (hw : t.root.WellFormed) (root : Path) (dirs : List String) :
    scan t root dirs = (hits t root dirs).map (root.display ·) ∧
      (check t root dirs).map Issue.finding = reportOf (scan t root dirs) ∧
      (∀ path ∈ hits t root dirs, ∃ location, t.placeOf? path = some location ∧
        ∃ dir ∈ dirs, FoundThrough t root dir location) ∧
      (open Classical in ∀ location,
        ((hits t root dirs).map t.placeOf?).count (some location) =
          dirs.countP fun dir => FoundThrough t root dir location) ∧
      (((hits t root dirs).map t.placeOf?).Nodup ↔ dirs.Pairwise fun dir dir' =>
        ∀ location, ¬ (FoundThrough t root dir location ∧ FoundThrough t root dir' location)) ∧
      (dirs.Pairwise (Apart t root) → ((hits t root dirs).map t.placeOf?).Nodup) := by
  have honce := @nodup_places_hits_iff t root dirs hw
  refine ⟨rfl, findings_check t root dirs, fun path hpath => ?_, count_places_hits hw root dirs,
    honce, fun h => honce.mpr (h.imp fun hapart => hapart.not_foundThrough hw)⟩
  obtain ⟨dir, hdir, hhit⟩ := List.mem_flatMap.mp hpath
  obtain ⟨location, hlocation⟩ := exists_place_of_mem_hitsIn hw hhit
  refine ⟨location, hlocation, dir, hdir, (mem_places_hitsIn_iff hw).mp ?_⟩
  exact List.mem_map.mpr ⟨path, hhit, hlocation⟩

/-- Through the second scan root one of the files is found again. -/
theorem scan_lists_by_root_project :
    project.root.WellFormed ∧
      FoundThrough project ⟨"/"⟩ "contracts" ["contracts", "a", "x.sol"] ∧
      FoundThrough project ⟨"/"⟩ "./contracts/a" ["contracts", "a", "x.sol"] ∧
      ¬ ((hits project ⟨"/"⟩ ["contracts", "./contracts/a"]).map project.placeOf?).Nodup ∧
      ((hits project ⟨"/"⟩ ["contracts"]).map project.placeOf?).Nodup := by
  have hwhere : project.whereabouts? ⟨"/contracts"⟩ = some ["contracts"] ∧
      project.whereabouts? ⟨"/./contracts/a"⟩ = some ["contracts", "a"] ∧
      project.whereabouts? ⟨"/contracts/a/x.sol"⟩ = some ["contracts", "a", "x.sol"] ∧
      project.whereabouts? ⟨"/./contracts/a/x.sol"⟩ = some ["contracts", "a", "x.sol"] := by
    decide
  obtain ⟨hcontracts, hinner, hfile, hinnerFile⟩ := hwhere
  have hjoin : Path.join ⟨"/"⟩ ⟨"contracts"⟩ = ⟨"/contracts"⟩ := by decide
  have hinnerJoin : Path.join ⟨"/"⟩ ⟨"./contracts/a"⟩ = ⟨"/./contracts/a"⟩ := by decide
  have hfound : FoundThrough project ⟨"/"⟩ "contracts" ["contracts", "a", "x.sol"] := by
    refine ⟨["a", "x.sol"], forbiddenBytes, ?_, ?_⟩
    · rw [hjoin]
      exact ⟨⟨_, stat_of_whereabouts? hcontracts rfl, rfl⟩, ⟨["a"], ['x'], by simp, by decide⟩,
        ⟨_, read_eq_ok_iff.mpr (stat_of_whereabouts? hfile rfl)⟩, List.infix_refl _⟩
    · rw [hjoin]
      exact placeOf?_eq_some_iff.mpr (locate_of_whereabouts? hfile)
  have hfound' : FoundThrough project ⟨"/"⟩ "./contracts/a" ["contracts", "a", "x.sol"] := by
    refine ⟨["x.sol"], forbiddenBytes, ?_, ?_⟩
    · rw [hinnerJoin]
      exact ⟨⟨_, stat_of_whereabouts? hinner rfl, rfl⟩, ⟨[], ['x'], by simp, by decide⟩,
        ⟨_, read_eq_ok_iff.mpr (stat_of_whereabouts? hinnerFile rfl)⟩, List.infix_refl _⟩
    · rw [hinnerJoin]
      exact placeOf?_eq_some_iff.mpr (locate_of_whereabouts? hinnerFile)
  refine ⟨project_wellFormed, hfound, hfound', fun hnodup => ?_, ?_⟩
  · obtain ⟨-, -, -, -, honce, -⟩ :=
      scan_lists_by_root project_wellFormed ⟨"/"⟩ ["contracts", "./contracts/a"]
    have hapart := List.pairwise_cons.mp (honce.mp hnodup)
    exact hapart.1 _ List.mem_cons_self _ ⟨hfound, hfound'⟩
  · obtain ⟨-, -, -, -, -, hone⟩ := scan_lists_by_root project_wellFormed ⟨"/"⟩ ["contracts"]
    exact hone (List.pairwise_singleton _ _)

/-- One file that uses the origin. -/
def single : FileTree where
  root := .directory [("contracts", .directory [("A.sol", .file forbiddenBytes)])]

theorem single_wellFormed : single.root.WellFormed := by
  refine .directory (by decide) (by decide) ?_
  rw [List.forall_mem_singleton]
  refine .directory (by decide) (by decide) ?_
  rw [List.forall_mem_singleton]
  exact .file _

/-- A scan root that is named twice lists its files twice. -/
theorem single_listed_twice :
    single.root.WellFormed ∧
      scan single ⟨"/"⟩ ["contracts", "contracts"] = ["contracts/A.sol", "contracts/A.sol"] ∧
      (hits single ⟨"/"⟩ ["contracts", "contracts"]).map single.placeOf? =
        [some ["contracts", "A.sol"], some ["contracts", "A.sol"]] ∧
      ¬ ((hits single ⟨"/"⟩ ["contracts", "contracts"]).map single.placeOf?).Nodup := by
  have hwhere : single.whereabouts? ⟨"/contracts"⟩ = some ["contracts"] ∧
      single.whereabouts? ⟨"/contracts/A.sol"⟩ = some ["contracts", "A.sol"] := by
    decide
  obtain ⟨hcontracts, hfile⟩ := hwhere
  have hjoin : Path.join ⟨"/"⟩ ⟨"contracts"⟩ = ⟨"/contracts"⟩ := by decide
  have hchild : Path.child ⟨"/contracts"⟩ "A.sol" = ⟨"/contracts/A.sol"⟩ := by decide
  have hhit : isHit single ⟨"/contracts/A.sol"⟩ = true :=
    isHit_iff.mpr ⟨by decide, _, read_eq_ok_iff.mpr (stat_of_whereabouts? hfile rfl),
      List.infix_refl _⟩
  have hone : hitsIn single ⟨"/"⟩ "contracts" = [⟨"/contracts/A.sol"⟩] := by
    rw [hitsIn, hjoin]
    simp only [stat_of_whereabouts? hcontracts rfl]
    simp [filesUnder, filesAmong, inOrder, hchild, hhit]
  have hhits : hits single ⟨"/"⟩ ["contracts", "contracts"] =
      [⟨"/contracts/A.sol"⟩, ⟨"/contracts/A.sol"⟩] := by
    simp [hits, hone]
  have hplace : single.placeOf? ⟨"/contracts/A.sol"⟩ = some ["contracts", "A.sol"] :=
    placeOf?_eq_some_iff.mpr (locate_of_whereabouts? hfile)
  have hplaces : (hits single ⟨"/"⟩ ["contracts", "contracts"]).map single.placeOf? =
      [some ["contracts", "A.sol"], some ["contracts", "A.sol"]] := by
    simp [hhits, hplace]
  have hshown : Path.display ⟨"/"⟩ ⟨"/contracts/A.sol"⟩ = "contracts/A.sol" := by decide +kernel
  refine ⟨single_wellFormed, ?_, hplaces, ?_⟩
  · show (hits single ⟨"/"⟩ ["contracts", "contracts"]).map (Path.display ⟨"/"⟩ ·) = _
    simp [hhits, hshown]
  · rw [hplaces]
    decide

end OriginUse

end TokenAudit
