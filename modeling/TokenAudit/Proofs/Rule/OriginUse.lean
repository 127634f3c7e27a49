import Mathlib.Data.List.Forall2
import Mathlib.Data.String.Basic
import TokenAudit.Proofs.Files.Tree
import TokenAudit.Proofs.Text.Utf8
import TokenAudit.Rule.OriginUse

/-! The scan for uses of the origin of a transaction finds all of them, in the order of their
paths. -/

namespace TokenAudit.OriginUse

variable {t : FileTree} {base path : Path} {e : Entry} {names : List String}

/-- The bytes of the forbidden text, which is ASCII. -/
def forbiddenBytes : List UInt8 := [0x74, 0x78, 0x2E, 0x6F, 0x72, 0x69, 0x67, 0x69, 0x6E]

/-- The last name is some text followed by `.sol`. -/
def IsSource (names : List String) : Prop :=
  ∃ (way : List String) (stem : List Char),
    stem ≠ [] ∧ names = way ++ [String.ofList (stem ++ ".sol".toList)]

/-- Below the directory `base`, and not through links, the names lead to a source which can be
read and has the forbidden text among its bytes. -/
structure UsesOrigin (t : FileTree) (base : Path) (names : List String) (bytes : List UInt8) :
    Prop where
  file : ∃ directory, t.stat base = .ok directory ∧ directory.at? names = some (.file bytes)
  source : IsSource names
  readable : ∃ read, t.read (base.below names) = .ok read
  origin : forbiddenBytes <:+: bytes

/-- The paths of all files below `base` that use the origin, strictly ascending in the order by
components. -/
structure Finds (t : FileTree) (base : Path) (hits : List Path) : Prop where
  mem_iff : ∀ path, path ∈ hits ↔
    ∃ names bytes, UsesOrigin t base names bytes ∧ path = base.below names
  ordered : hits.Pairwise Path.Before

theorem mem_inOrder {lists : List (String × List Path)} :
    path ∈ inOrder lists ↔ ∃ n paths, (n, paths) ∈ lists ∧ path ∈ paths := by
  simp [inOrder]

theorem pairwise_inOrder {lists : List (String × List Path)} (hnodup : (lists.map (·.1)).Nodup)
    (hpaths : ∀ l ∈ lists, l.2.Pairwise Path.Before)
    (hlt : ∀ l ∈ lists, ∀ l' ∈ lists, l.1 < l'.1 → ∀ p ∈ l.2, ∀ q ∈ l'.2, p.Before q) :
    (inOrder lists).Pairwise Path.Before := by
  have hperm := List.mergeSort_perm lists fun a b => decide (a.1 ≤ b.1)
  have hmem : ∀ {l}, l ∈ lists.mergeSort (fun a b => decide (a.1 ≤ b.1)) → l ∈ lists :=
    hperm.mem_iff.mp
  have hsorted : (lists.mergeSort fun a b => decide (a.1 ≤ b.1)).Pairwise
      fun a b => decide (a.1 ≤ b.1) = true := by
    apply List.pairwise_mergeSort
    · intro a b c hab hbc
      simp only [decide_eq_true_eq] at hab hbc ⊢
      exact String.le_trans hab hbc
    · intro a b
      simpa using String.le_total a.1 b.1
  have hne : (lists.mergeSort fun a b => decide (a.1 ≤ b.1)).Pairwise fun a b => a.1 ≠ b.1 :=
    List.pairwise_map.mp ((hperm.map _).nodup_iff.mpr hnodup)
  rw [inOrder, List.pairwise_flatMap]
  refine ⟨fun l hl => hpaths l (hmem hl), ?_⟩
  refine (hsorted.and hne).imp_of_mem fun {l l'} hl hl' h => ?_
  exact hlt l (hmem hl) l' (hmem hl') (lt_of_le_of_ne (of_decide_eq_true h.1) h.2)

theorem filesAmong_eq_map (directory : Path) (children : List (String × Entry)) :
    filesAmong directory children =
      children.map fun c => (c.1, filesUnder (directory.child c.1) c.2) := by
  induction children with
  | nil => rfl
  | cons c children ih =>
    obtain ⟨n, e⟩ := c
    rw [filesAmong, ih]
    rfl

/-- All files below an entry are met, and nothing else. -/
theorem mem_filesUnder_iff (hw : e.WellFormed) (base : Path) :
    path ∈ filesUnder base e ↔
      ∃ names bytes, e.at? names = some (.file bytes) ∧ path = base.below names := by
  induction hw generalizing base with
  | file bytes =>
    rw [filesUnder, List.mem_singleton]
    constructor
    · intro h
      subst h
      exact ⟨[], bytes, rfl, rfl⟩
    · intro h
      obtain ⟨_ | ⟨n, names⟩, _, hf, rfl⟩ := h
      · rfl
      · obtain ⟨_, _, h, _⟩ := Entry.at?_cons_eq_file.mp hf
        cases h
  | link target =>
    simp only [filesUnder, List.not_mem_nil, false_iff]
    intro h
    obtain ⟨_ | ⟨n, names⟩, _, hf, -⟩ := h
    · cases hf
    · obtain ⟨_, _, h, _⟩ := Entry.at?_cons_eq_file.mp hf
      cases h
  | @directory children hnodup _ _ ih =>
    rw [filesUnder, mem_inOrder, filesAmong_eq_map]
    constructor
    · intro h
      obtain ⟨n, _, hmem, hpath⟩ := h
      obtain ⟨⟨n, child⟩, hc, h⟩ := List.mem_map.mp hmem
      obtain ⟨rfl, rfl⟩ := Prod.mk.inj h
      obtain ⟨names, bytes, hf, rfl⟩ := (ih _ hc _).mp hpath
      have hlookup := (lookup_eq_some_iff_mem hnodup).mpr hc
      exact ⟨n :: names, bytes, Entry.at?_cons_eq_file.mpr ⟨_, _, rfl, hlookup, hf⟩, rfl⟩
    · intro h
      obtain ⟨_ | ⟨n, names⟩, bytes, hf, rfl⟩ := h
      · cases hf
      · obtain ⟨_, child, h, hlookup, hfile⟩ := Entry.at?_cons_eq_file.mp hf
        obtain rfl := Entry.directory.inj h
        have hc := (lookup_eq_some_iff_mem hnodup).mp hlookup
        exact ⟨n, _, List.mem_map.mpr ⟨_, hc, rfl⟩, (ih _ hc _).mpr ⟨names, bytes, hfile, rfl⟩⟩

/-- Files below an entry are met in the order of their paths. -/
theorem pairwise_filesUnder (hw : e.WellFormed) (base : Path) :
    (filesUnder base e).Pairwise Path.Before := by
  induction hw generalizing base with
  | file bytes => simp [filesUnder]
  | link target => simp [filesUnder]
  | @directory children hnodup hnames hchildren ih =>
    rw [filesUnder, filesAmong_eq_map]
    apply pairwise_inOrder
    · simpa [Function.comp_def] using hnodup
    · intro l hl
      obtain ⟨c, hc, rfl⟩ := List.mem_map.mp hl
      exact ih c hc (base.child c.1)
    · intro l hl l' hl' hlt p hp q hq
      obtain ⟨c, hc, rfl⟩ := List.mem_map.mp hl
      obtain ⟨c', hc', rfl⟩ := List.mem_map.mp hl'
      obtain ⟨ms, _, hms, rfl⟩ := (mem_filesUnder_iff (hchildren c hc) _).mp hp
      obtain ⟨ns, _, hns, rfl⟩ := (mem_filesUnder_iff (hchildren c' hc') _).mp hq
      exact Path.before_of_lt (hnames c hc) (hnames c' hc') hlt ((hchildren c hc).at? hms).1
        ((hchildren c' hc').at? hns).1 base

theorem isSolidity_below_iff (hn : ∀ n ∈ names, IsName n) (hne : names ≠ []) (base : Path) :
    (base.below names).isSolidity = true ↔ IsSource names := by
  obtain ⟨way, name, rfl⟩ := (List.eq_nil_or_concat' names).resolve_left hne
  have hname : IsName name := hn name (by simp)
  have hbelow : base.below (way ++ [name]) = (base.below way).child name := by
    simp [Path.below]
  rw [hbelow, Path.isSolidity_child_iff hname]
  constructor
  · intro h
    obtain ⟨stem, hstem, htext⟩ := h
    refine ⟨way, stem, hstem, ?_⟩
    rw [← htext, String.ofList_toList]
  · intro h
    obtain ⟨way', stem, hstem, hnames⟩ := h
    obtain ⟨-, hlast⟩ := List.append_inj' hnames rfl
    refine ⟨stem, hstem, ?_⟩
    rw [List.singleton_inj.mp hlast, String.toList_ofList]

theorem mentions_origin_iff (bytes : List UInt8) :
    Text.hasInfix forbidden (Text.ofBytesLossy bytes) = true ↔ forbiddenBytes <:+: bytes := by
  have hbytes : Text.toBytes forbidden = forbiddenBytes := by decide +kernel
  rw [Text.hasInfix_ofBytesLossy (by decide +kernel) (by decide +kernel), hbytes]

theorem isHit_iff : isHit t path = true ↔
    path.isSolidity = true ∧ ∃ read, t.read path = .ok read ∧ forbiddenBytes <:+: read := by
  unfold isHit
  rw [Bool.and_eq_true]
  cases hread : t.read path with
  | ok bytes => simp [mentions_origin_iff]
  | error _ => simp

theorem isDirectory_iff : t.isDirectory path = true ↔
    ∃ children, t.stat path = .ok (.directory children) := by
  unfold FileTree.isDirectory
  cases t.stat path with
  | ok e => cases e <;> simp [Entry.isDirectory]
  | error _ => simp

/-- A scan root that is a directory gives all that uses the origin below it. -/
theorem finds_hitsIn (hw : t.root.WellFormed) (root : Path) (dir : String)
    (hd : t.isDirectory (root.join ⟨dir⟩) = true) :
    Finds t (root.join ⟨dir⟩) (hitsIn t root dir) := by
  obtain ⟨children, hs⟩ := isDirectory_iff.mp hd
  have hwd : (Entry.directory children).WellFormed := by
    obtain ⟨place, -, -, hentry⟩ := FileTree.stat_eq_ok_iff.mp hs
    exact (hw.at? hentry).2
  have hhits : hitsIn t root dir =
      (filesUnder (root.join ⟨dir⟩) (.directory children)).filter (isHit t) := by
    unfold hitsIn
    dsimp only
    rw [hs]
  -- A directory is no file, so there are names behind it.
  have hne : ∀ {names bytes}, (Entry.directory children).at? names = some (.file bytes) →
      names ≠ [] := by
    rintro _ _ hf rfl
    cases hf
  rw [hhits]
  refine ⟨fun path => ?_, (pairwise_filesUnder hwd _).filter _⟩
  rw [List.mem_filter, mem_filesUnder_iff hwd, isHit_iff]
  constructor
  · intro h
    obtain ⟨⟨names, bytes, hf, rfl⟩, hsolidity, read, hread, horigin⟩ := h
    obtain rfl := FileTree.read_below hw hs hf (hne hf) hread
    have hsource := (isSolidity_below_iff (hwd.at? hf).1 (hne hf) _).mp hsolidity
    exact ⟨names, read, ⟨⟨_, hs, hf⟩, hsource, ⟨read, hread⟩, horigin⟩, rfl⟩
  · intro h
    obtain ⟨names, bytes, ⟨⟨directory, hs', hf⟩, hsource, ⟨read, hread⟩, horigin⟩, rfl⟩ := h
    obtain rfl : Entry.directory children = directory := Except.ok.inj (hs.symm.trans hs')
    have hsolidity := (isSolidity_below_iff (hwd.at? hf).1 (hne hf) (root.join ⟨dir⟩)).mpr hsource
    obtain rfl := FileTree.read_below hw hs hf (hne hf) hread
    exact ⟨⟨names, read, hf, rfl⟩, hsolidity, read, hread, horigin⟩

theorem hitsIn_eq_nil {root : Path} {dir : String}
    (hd : ¬ t.isDirectory (root.join ⟨dir⟩) = true) : hitsIn t root dir = [] := by
  rw [isDirectory_iff] at hd
  dsimp only [hitsIn]
  split
  · next children hs => exact absurd ⟨children, hs⟩ hd
  · rfl

theorem join_map_mark (mark first : String) (more : List String) :
    String.join ((first :: more).map (mark ++ ·)) = mark ++ mark.intercalate (first :: more) := by
  induction more generalizing first with
  | nil => simp
  | cons second more ih =>
    rw [List.map_cons, String.join_cons, ih, String.intercalate_cons_cons, String.append_assoc,
      String.append_assoc]

/-- What the check reports when the scan finds `files`. -/
def reportOf (files : List String) : List Finding :=
  if files = [] then []
  else [⟨.originUse, .fail, "C3: tx.origin usage found in:\n  - " ++ "\n  - ".intercalate files⟩]

theorem findings_check (t : FileTree) (root : Path) (dirs : List String) :
    (check t root dirs).map Issue.finding = reportOf (scan t root dirs) := by
  unfold check reportOf
  cases hits : scan t root dirs with
  | nil => rfl
  | cons first more =>
    have hstart : "C3" ++ ": " ++ "tx.origin usage found in:" ++ "\n  - " =
        "C3: tx.origin usage found in:\n  - " := by decide
    have hmessage : (Issue.originUse (first :: more)).finding.message =
        "C3: tx.origin usage found in:\n  - " ++ "\n  - ".intercalate (first :: more) := by
      change "C3" ++ ": " ++ ("tx.origin usage found in:" ++
        String.join ((first :: more).map ("\n  - " ++ ·))) = _
      rw [join_map_mark, ← String.append_assoc, ← String.append_assoc, hstart]
    rw [if_neg (List.cons_ne_nil _ _), ← hmessage]
    rfl

/-- The scan gives, scan root after scan root, all that uses the origin below those that are
directories, and the check fails with exactly these files if there are any. -/
theorem scan_finds_all (hw : t.root.WellFormed) (root : Path) (dirs : List String) :
    (∃ hits : List (List Path),
      List.Forall₂ (fun dir paths => Finds t (root.join ⟨dir⟩) paths)
        (dirs.filter fun dir => t.isDirectory (root.join ⟨dir⟩)) hits ∧
      scan t root dirs = hits.flatten.map (root.display ·)) ∧
    (check t root dirs).map Issue.finding = reportOf (scan t root dirs) := by
  refine ⟨⟨(dirs.filter fun dir => t.isDirectory (root.join ⟨dir⟩)).map (hitsIn t root), ?_, ?_⟩,
    findings_check t root dirs⟩
  · rw [List.forall₂_map_right_iff, List.forall₂_same]
    intro dir hdir
    exact finds_hitsIn hw root dir (List.mem_filter.mp hdir).2
  · rw [← List.flatMap_def, flatMap_filter, scan]
    congr 2
    funext dir
    split_ifs with hd
    · rfl
    · exact hitsIn_eq_nil hd

/-- Two of the files use the origin, one of them after bytes that are no text. The link leads back
to the directory in which it stands. -/
def contracts : List (String × Entry) :=
  [("b.sol", .file ([0xFF, 0xE2, 0x82] ++ forbiddenBytes ++ [0xC0])),
    ("a", .directory [("x.sol", .file forbiddenBytes), ("x.md", .file forbiddenBytes)]),
    ("again", .link "."),
    ("c.sol", .file [0x74, 0x78])]

def project : FileTree where
  root := .directory [("contracts", .directory contracts)]

theorem project_wellFormed : project.root.WellFormed := by
  have hcontracts : (Entry.directory contracts).WellFormed := by
    refine .directory (by decide) (by decide) ?_
    simp only [contracts, List.forall_mem_cons, List.not_mem_nil, false_imp_iff, implies_true,
      and_true]
    refine ⟨.file _, .directory (by decide) (by decide) ?_, .link _, .file _⟩
    simp only [List.forall_mem_cons, List.not_mem_nil, false_imp_iff, implies_true, and_true]
    exact ⟨.file _, .file _⟩
  refine .directory (by decide) (by decide) ?_
  simpa using hcontracts

theorem project_stat (location : List String)
    (hpath : ¬ path.text.toList.contains '\x00' = true ∧ ¬ path.text.isEmpty = true ∧
      ¬ FileTree.maxPath ≤ path.text.utf8ByteSize)
    (hroot : path.isAbsolute = true)
    (hparts : (Path.parts path.text.toList).map String.ofList = "" :: location)
    (hfollow : project.follow FileTree.maxLinks [] location = .ok ⟨location, true⟩)
    (he : project.entry? location = some e) : project.stat path = .ok e := by
  refine FileTree.stat_eq_ok_iff.mpr ⟨⟨location, true⟩, ?_, rfl, he⟩
  rw [FileTree.locate_eq_ok_iff, if_pos hroot, hparts, FileTree.follow_skip (Or.inl rfl)]
  exact ⟨hpath, hfollow⟩

theorem scan_finds_all_project :
    project.root.WellFormed ∧
      UsesOrigin project ⟨"/contracts"⟩ ["a", "x.sol"] forbiddenBytes ∧
      "contracts/a/x.sol" ∈ scan project ⟨"/"⟩ ["contracts"] := by
  have henter : ∀ rest, project.follow FileTree.maxLinks [] ("contracts" :: rest) =
      project.follow FileTree.maxLinks ["contracts"] rest := fun rest =>
    FileTree.follow_enter ⟨by decide, by decide, by decide⟩ ⟨_, rfl⟩
  have hdirectory : project.stat ⟨"/contracts"⟩ = .ok (.directory contracts) := by
    refine project_stat ["contracts"] (by decide) (by decide) (by decide) ?_ rfl
    rw [henter, FileTree.follow]
  have hfile : project.stat ⟨"/contracts/a/x.sol"⟩ = .ok (.file forbiddenBytes) := by
    refine project_stat ["contracts", "a", "x.sol"] (by decide) (by decide) (by decide) ?_ rfl
    rw [henter, FileTree.follow_enter ⟨by decide, by decide, by decide⟩ ⟨_, rfl⟩,
      FileTree.follow_file ⟨by decide, by decide, by decide⟩ rfl]
    rfl
  have huses : UsesOrigin project ⟨"/contracts"⟩ ["a", "x.sol"] forbiddenBytes :=
    ⟨⟨_, hdirectory, rfl⟩, ⟨["a"], ['x'], by simp, by decide⟩,
      ⟨_, FileTree.read_eq_ok_iff.mpr hfile⟩, List.infix_refl _⟩
  refine ⟨project_wellFormed, huses, ?_⟩
  obtain ⟨⟨hits, hfinds, hscan⟩, -⟩ := scan_finds_all project_wellFormed ⟨"/"⟩ ["contracts"]
  have hjoin : Path.join ⟨"/"⟩ ⟨"contracts"⟩ = ⟨"/contracts"⟩ := by decide
  have hdirs : (["contracts"].filter fun dir => project.isDirectory (Path.join ⟨"/"⟩ ⟨dir⟩)) =
      ["contracts"] := by
    simp only [List.filter_cons, List.filter_nil, hjoin]
    rw [if_pos (isDirectory_iff.mpr ⟨_, hdirectory⟩)]
  rw [hdirs] at hfinds
  obtain ⟨paths, _, hpaths, -, rfl⟩ := List.forall₂_cons_left_iff.mp hfinds
  rw [hjoin] at hpaths
  rw [hscan]
  refine List.mem_map.mpr ⟨⟨"/contracts/a/x.sol"⟩, ?_, by decide +kernel⟩
  have hmem := (hpaths.mem_iff ⟨"/contracts/a/x.sol"⟩).mpr ⟨_, _, huses, by decide⟩
  exact List.mem_flatten.mpr ⟨paths, List.mem_cons_self, hmem⟩

end TokenAudit.OriginUse
