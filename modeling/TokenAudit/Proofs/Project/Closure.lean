import TokenAudit.Project.Load
import TokenAudit.Proofs.Files.PathOrder
import TokenAudit.Proofs.Files.Sources
import TokenAudit.Proofs.Graph.Rounds

/-! The sources of a project are the readable files that its imports lead to, each read once, and
its contracts are those of the sources one after another. -/

namespace TokenAudit

open Solidity (Outline)

theorem Import.isCanonical_of_resolve? {t : FileTree} {rs : Remappings} {root p q : Path}
    {spec : String} (h : Import.resolve? t rs root p spec = some q) : t.IsCanonical q := by
  obtain ⟨found, hfound, hq⟩ := Option.bind_eq_some_iff.mp h
  have hfile : t.isFile found = true := List.find?_some hfound
  cases hc : t.canonicalize found with
  | error e => simp [hc, Except.toOption] at hq
  | ok c =>
    obtain rfl : c = q := by simpa [hc, Except.toOption] using hq
    exact FileTree.isCanonical_of_canonicalize hfile hc

namespace Source

/-- The least set of files that holds the seeds and all that the imports of a readable member
lead to. -/
inductive Reached (outline : String → List Char → Outline) (t : FileTree) (rs : Remappings)
    (root : Path) (seeds : List Path) : Path → Prop
  | seed {p} (hp : p ∈ seeds) : Reached outline t rs root seeds p
  | imported {p q bytes spec} (hp : Reached outline t rs root seeds p)
      (hread : t.read p = .ok bytes)
      (hspec : spec ∈ (outline (root.display p) (Text.ofBytesLossy bytes)).imports)
      (hq : Import.resolve? t rs root p spec = some q) : Reached outline t rs root seeds q

/-- What the file at `p` is read as: its contracts, and of its imports in their order those that
lead to a file. -/
def Reads (outline : String → List Char → Outline) (t : FileTree) (rs : Remappings) (root p : Path)
    (s : Source) : Prop :=
  ∃ bytes, t.read p = .ok bytes ∧
    s.contracts = (outline (root.display p) (Text.ofBytesLossy bytes)).contracts ∧
    s.imports = (outline (root.display p) (Text.ofBytesLossy bytes)).imports.filterMap
      (Import.resolve? t rs root p)

variable {outline : String → List Char → Outline} {t : FileTree} {rs : Remappings}
variable {root p q : Path} {seeds : List Path} {s : Source}

theorem load?_eq_some_iff : load? outline t rs root p = some s ↔ Reads outline t rs root p s := by
  obtain ⟨contracts, imports⟩ := s
  unfold load? Reads
  cases t.read p with
  | error e => simp
  | ok bytes => simp [eq_comm]

theorem isCanonical_of_mem_imports (hs : Reads outline t rs root p s) (hq : q ∈ s.imports) :
    t.IsCanonical q := by
  obtain ⟨bytes, -, -, himports⟩ := hs
  rw [himports] at hq
  obtain ⟨spec, -, hspec⟩ := List.mem_filterMap.mp hq
  exact Import.isCanonical_of_resolve? hspec

theorem reach_iff_reached :
    Graph.Reach (load? outline t rs root) Source.imports seeds p ↔
      Reached outline t rs root seeds p := by
  constructor
  · intro h
    induction h with
    | seed hp => exact .seed hp
    | step _ hload hq ih =>
      obtain ⟨bytes, hread, -, himports⟩ := load?_eq_some_iff.mp hload
      rw [himports] at hq
      obtain ⟨spec, hspec, hresolve⟩ := List.mem_filterMap.mp hq
      exact .imported ih hread hspec hresolve
  · intro h
    induction h with
    | seed hp => exact .seed hp
    | @imported p q bytes spec _ hread hspec hq ih =>
      have hload : load? outline t rs root p = some
          ⟨(outline (root.display p) (Text.ofBytesLossy bytes)).contracts,
            (outline (root.display p) (Text.ofBytesLossy bytes)).imports.filterMap
              (Import.resolve? t rs root p)⟩ :=
        load?_eq_some_iff.mpr ⟨bytes, hread, rfl, rfl⟩
      exact .step ih hload (List.mem_filterMap.mpr ⟨spec, hspec, hq⟩)

/-- The files of the tree hold all that imports lead to, so the rounds end as they do without a
bound. -/
theorem ends_closure (outline : String → List Char → Outline) (t : FileTree) (rs : Remappings)
    (root : Path) (seeds : List Path) :
    Graph.Ends (load? outline t rs root) Source.imports seeds seeds
      (closure outline t rs root seeds) := by
  refine Graph.ends_rounds (fun p s hload q hq => ?_) seeds seeds
  exact (isCanonical_of_mem_imports (load?_eq_some_iff.mp hload) hq).mem_files

theorem mem_closure_iff :
    (p, s) ∈ closure outline t rs root seeds ↔
      Reached outline t rs root seeds p ∧ Reads outline t rs root p s := by
  rw [(ends_closure outline t rs root seeds).mem_iff, reach_iff_reached, load?_eq_some_iff]

theorem nodup_closure (distinct : seeds.Nodup) :
    ((closure outline t rs root seeds).map (·.1)).Nodup :=
  ((ends_closure outline t rs root seeds).nodup distinct (List.Subset.refl _)).1

theorem Reached.isCanonical (hseeds : ∀ p ∈ seeds, t.IsCanonical p)
    (hp : Reached outline t rs root seeds p) : t.IsCanonical p := by
  cases hp with
  | seed hp => exact hseeds p hp
  | imported _ _ _ hq => exact Import.isCanonical_of_resolve? hq

end Source

namespace Project

/-- `ordered` are the declarations `ds` by their lines, those of one line in their order. -/
structure ByLine (ds ordered : List Declaration) : Prop where
  perm : ordered.Perm ds
  sorted : ordered.Pairwise fun a b => a.lineStart ≤ b.lineStart
  stable : ∀ n, ordered.filter (·.lineStart = n) = ds.filter (·.lineStart = n)

theorem byLine_byLine (ds : List Declaration) : ByLine ds (byLine ds) := by
  have htrans : ∀ a b c : Declaration, decide (a.lineStart ≤ b.lineStart) = true →
      decide (b.lineStart ≤ c.lineStart) = true → decide (a.lineStart ≤ c.lineStart) = true := by
    intro a b c hab hbc
    simp only [decide_eq_true_eq] at hab hbc ⊢
    exact UInt32.le_trans hab hbc
  have htotal : ∀ a b : Declaration,
      (decide (a.lineStart ≤ b.lineStart) || decide (b.lineStart ≤ a.lineStart)) = true := by
    intro a b
    simpa using UInt32.le_total a.lineStart b.lineStart
  have hperm : (byLine ds).Perm ds := List.mergeSort_perm ds _
  constructor
  case perm => exact hperm
  case sorted =>
    exact (List.pairwise_mergeSort htrans htotal ds).imp fun h => of_decide_eq_true h
  case stable =>
    intro n
    -- The declarations of one line are in order, and so remain where they are to each other.
    have hsorted : (ds.filter (·.lineStart = n)).Pairwise
        fun a b => decide (a.lineStart ≤ b.lineStart) = true := by
      refine List.pairwise_of_forall_mem_list fun a ha b hb => ?_
      have hna : a.lineStart = n := by simpa using (List.mem_filter.mp ha).2
      have hnb : b.lineStart = n := by simpa using (List.mem_filter.mp hb).2
      simp [hna, hnb]
    have hsub : (ds.filter (·.lineStart = n)).Sublist (byLine ds) :=
      List.sublist_mergeSort htrans htotal hsorted List.filter_sublist
    have hkept : (ds.filter (·.lineStart = n)).Sublist ((byLine ds).filter (·.lineStart = n)) := by
      have h := hsub.filter (·.lineStart = n)
      simpa only [List.filter_filter, Bool.and_self] using h
    exact (hkept.eq_of_length (hperm.filter _).length_eq.symm).symm

/-- `ds` are the declarations of the sources, one source after another in the order `before` of
their paths, those of one source by their lines. -/
structure Concatenates (before : Path → Path → Prop) (sources files : List (Path × Source))
    (ds : List Declaration) : Prop where
  perm : files.Perm sources
  ordered : files.Pairwise fun a b => before a.1 b.1
  blocks : ∃ blocks, List.Forall₂ (fun f block => ByLine f.2.contracts block) files blocks ∧
    ds = blocks.flatten

/-- The sources by their paths. -/
def byPath (sources : List (Path × Source)) : List (Path × Source) :=
  sources.mergeSort fun a b => Path.le a.1 b.1

theorem concatenates_declarations (sources : List (Path × Source)) :
    Concatenates (fun p q => Path.le p q = true) sources (byPath sources)
      (declarations sources) := by
  constructor
  case perm => exact List.mergeSort_perm sources _
  case ordered =>
    have htrans : ∀ a b c : Path × Source, Path.le a.1 b.1 = true → Path.le b.1 c.1 = true →
        Path.le a.1 c.1 = true := fun a b c hab hbc => Path.le_trans hab hbc
    have htotal : ∀ a b : Path × Source, (Path.le a.1 b.1 || Path.le b.1 a.1) = true :=
      fun a b => Path.le_total a.1 b.1
    exact List.pairwise_mergeSort htrans htotal sources
  case blocks =>
    refine ⟨(byPath sources).map fun f => byLine f.2.contracts, ?_, ?_⟩
    · rw [List.forall₂_map_right_iff, List.forall₂_same]
      exact fun f _ => byLine_byLine f.2.contracts
    · rw [declarations, List.flatMap_def]
      rfl

/-- Where paths differ in their components, their order is strict. -/
theorem Concatenates.strict {sources files : List (Path × Source)} {ds : List Declaration}
    (h : Concatenates (fun p q => Path.le p q = true) sources files ds)
    (hnodup : (sources.map (·.1)).Nodup)
    (hinj : ∀ a ∈ sources, ∀ b ∈ sources, a.1.components = b.1.components → a.1 = b.1) :
    Concatenates Path.Before sources files ds := by
  have hne : files.Pairwise fun a b => a.1 ≠ b.1 :=
    List.pairwise_map.mp ((h.perm.map _).nodup_iff.mpr hnodup)
  refine ⟨h.perm, (h.ordered.and hne).imp_of_mem fun {a b} ha hb hab => ?_, h.blocks⟩
  exact Path.before_of_le hab.1 fun hc =>
    hab.2 (hinj a (h.perm.mem_iff.mp ha) b (h.perm.mem_iff.mp hb) hc)

/-- No declaration is lost and none is repeated. -/
theorem Concatenates.perm_contracts {before : Path → Path → Prop}
    {sources files : List (Path × Source)} {ds : List Declaration}
    (h : Concatenates before sources files ds) : ds.Perm (sources.flatMap (·.2.contracts)) := by
  obtain ⟨blocks, hblocks, rfl⟩ := h.blocks
  have hfiles : blocks.flatten.Perm (files.flatMap (·.2.contracts)) := by
    clear h
    induction hblocks with
    | nil => exact List.Perm.refl _
    | cons hb _ ih => exact hb.perm.append ih
  exact hfiles.trans (h.perm.flatMap_right _)

variable {outline : String → List Char → Outline} {t : FileTree} {rs : Remappings}
variable {root : Path} {seeds : List Path}

theorem locate_eq_ok {p : Project} (hl : p.locate t = .ok (root, seeds)) :
    seeds = (Sources.find t p.target p.ignorePatterns).filterMap
      fun f => (t.canonicalize f).toOption := by
  obtain ⟨-, -, h⟩ := bind_eq_ok.mp hl
  obtain ⟨root', -, h⟩ := bind_eq_ok.mp h
  dsimp only at h
  split at h
  · cases h
  · exact (Prod.mk.inj (Except.ok.inj h)).2.symm

/-- The canonical paths in which a project starts are those of files, each once. -/
theorem canonical_of_locate (hw : t.root.WellFormed) {p : Project}
    (hl : p.locate t = .ok (root, seeds)) : seeds.Nodup ∧ ∀ s ∈ seeds, t.IsCanonical s := by
  rw [locate_eq_ok hl]
  exact (Sources.found_findBy hw Glob.areBuildable p.target p.ignorePatterns).canonical hw

theorem strict_closure (hw : t.root.WellFormed) (distinct : seeds.Nodup)
    (hseeds : ∀ s ∈ seeds, t.IsCanonical s) :
    Concatenates Path.Before (Source.closure outline t rs root seeds)
      (byPath (Source.closure outline t rs root seeds))
      (declarations (Source.closure outline t rs root seeds)) := by
  have hcanonical : ∀ a ∈ Source.closure outline t rs root seeds, t.IsCanonical a.1 :=
    fun a ha => (Source.mem_closure_iff.mp ha).1.isCanonical hseeds
  exact (concatenates_declarations _).strict (Source.nodup_closure distinct)
    fun a ha b hb => (hcanonical a ha).components_inj hw (hcanonical b hb)

theorem loadBy_of_locate {p : Project} (hl : p.locate t = .ok (root, seeds)) :
    p.loadBy outline t = .ok
      { engine := "tree-sitter-solidity"
        contracts := contractsOf root
          (Source.closure outline t (Remappings.load t root) root seeds) } := by
  rw [loadBy, hl]
  rfl

/-- The search in rounds ends, whatever a source is read as. It reads each file at most once, and
its sources are the readable files of the least set that imports lead to. The declarations are
those of the sources one after another, by paths and lines. A project starts in distinct files,
and it is these declarations that it linearizes, where its sources are read as Solidity. -/
theorem sources_of_imports (outline : String → List Char → Outline) (t : FileTree)
    (rs : Remappings) (root : Path) {seeds : List Path} (distinct : seeds.Nodup) :
    let sources := Source.closure outline t rs root seeds
    Graph.Ends (Source.load? outline t rs root) Source.imports seeds seeds sources ∧
      (sources.map (·.1)).Nodup ∧
      (∀ p s, (p, s) ∈ sources ↔
        Source.Reached outline t rs root seeds p ∧ Source.Reads outline t rs root p s) ∧
      Concatenates (fun p q => Path.le p q = true) sources (byPath sources)
        (declarations sources) ∧
      (t.root.WellFormed → (∀ s ∈ seeds, t.IsCanonical s) →
        Concatenates Path.Before sources (byPath sources) (declarations sources)) ∧
      (declarations sources).Perm (sources.flatMap (·.2.contracts)) ∧
      (∀ p : Project, ∀ root seeds, t.root.WellFormed → p.locate t = .ok (root, seeds) →
        seeds.Nodup ∧ (∀ s ∈ seeds, t.IsCanonical s) ∧
          ∃ sources, sources = Source.closure outline t (Remappings.load t root) root seeds ∧
            p.loadBy outline t = .ok
              { engine := "tree-sitter-solidity"
                contracts := Hierarchy.linearize
                  { declarations := declarations sources
                    imports := shownImports root sources } }) ∧
      ∀ p : Project, p.load t = p.loadBy Outline.read t := by
  intro sources
  have hconcat := concatenates_declarations sources
  refine ⟨?_, ?_, ?_, hconcat, ?_, hconcat.perm_contracts, ?_, fun p => rfl⟩
  · exact Source.ends_closure outline t rs root seeds
  · exact Source.nodup_closure distinct
  · exact fun p s => Source.mem_closure_iff
  · exact fun hw hseeds => strict_closure hw distinct hseeds
  · intro p root seeds hw hl
    obtain ⟨hnodup, hcanonical⟩ := canonical_of_locate hw hl
    exact ⟨hnodup, hcanonical, _, rfl, loadBy_of_locate hl⟩

/-- Two sources that import each other; the second declares two contracts. -/
def crossed : FileTree where
  root := .directory
    [("A.sol", .file (Text.toBytes "import \"./B.sol\";contract A{}".toList)),
      ("B.sol", .file (Text.toBytes "import \"./A.sol\";contract Z{}contract Y{}".toList))]

theorem crossed_wellFormed : crossed.root.WellFormed := by
  refine .directory (by decide) (by decide) ?_
  simp only [List.forall_mem_cons, List.not_mem_nil, false_imp_iff, implies_true, and_true]
  exact ⟨.file _, .file _⟩

theorem crossed_locate {p : Path} {name : String} {bytes : List UInt8}
    (hname : FileTree.Plain name) (hentry : crossed.entry? [name] = some (.file bytes))
    (hparts : (Path.parts p.text.toList).map String.ofList = ["", name] ∨
      (Path.parts p.text.toList).map String.ofList = ["", ".", name])
    (hused : ¬ p.text.toList.contains '\x00' = true ∧ ¬ p.text.isEmpty = true ∧
      ¬ FileTree.maxPath ≤ p.text.utf8ByteSize) (habs : p.isAbsolute = true) :
    crossed.locate p = .ok ⟨[name], true⟩ := by
  have hfile : crossed.follow FileTree.maxLinks [] [name] = .ok ⟨[name], true⟩ := by
    rw [FileTree.follow_file hname hentry]
    rfl
  refine FileTree.locate_eq_ok_iff.mpr ⟨hused, ?_⟩
  rw [if_pos habs]
  rcases hparts with hparts | hparts
  · rw [hparts, FileTree.follow_skip (Or.inl rfl), hfile]
  · rw [hparts, FileTree.follow_skip (Or.inl rfl), FileTree.follow_skip (Or.inr rfl), hfile]

theorem crossed_resolve (importer : Path) (spec name : String) {bytes : List UInt8}
    (hcandidates : Import.candidates ⟨[]⟩ ⟨"/"⟩ importer spec = [⟨"/./" ++ name⟩])
    (hentry : crossed.entry? [name] = some (.file bytes))
    (hl : crossed.locate ⟨"/./" ++ name⟩ = .ok ⟨[name], true⟩) :
    Import.resolve? crossed ⟨[]⟩ ⟨"/"⟩ importer spec = some (FileTree.pathOf [name]) := by
  have hfile : crossed.isFile ⟨"/./" ++ name⟩ = true :=
    FileTree.isFile_iff.mpr ⟨bytes, FileTree.stat_eq_ok_iff.mpr ⟨_, hl, rfl, hentry⟩⟩
  have hcanonical : crossed.canonicalize ⟨"/./" ++ name⟩ = .ok (FileTree.pathOf [name]) :=
    FileTree.canonicalize_eq_ok_iff.mpr ⟨_, hl, rfl, rfl⟩
  simp [Import.resolve?, hcandidates, hfile, hcanonical, Except.toOption]

/-- Each of the two is read once, though each leads to the other. -/
theorem sources_of_imports_crossed :
    [(⟨"/A.sol"⟩ : Path)].Nodup ∧ crossed.root.WellFormed ∧
      Project.locate crossed { target := ⟨"/A.sol"⟩, root := ⟨"/"⟩ } =
        .ok (⟨"/"⟩, [⟨"/A.sol"⟩]) ∧
      ∃ sources, sources = Source.closure Outline.read crossed ⟨[]⟩ ⟨"/"⟩ [⟨"/A.sol"⟩] ∧
        (sources.map (·.1)).Nodup ∧
        (∃ s, (⟨"/A.sol"⟩, s) ∈ sources ∧ s.imports = [⟨"/B.sol"⟩]) ∧
        (∃ s, (⟨"/B.sol"⟩, s) ∈ sources ∧ s.imports = [⟨"/A.sol"⟩] ∧
          s.contracts.map (·.name) = ["Z", "Y"]) ∧
        Concatenates Path.Before sources (byPath sources) (declarations sources) := by
  have distinct : [(⟨"/A.sol"⟩ : Path)].Nodup := by decide
  have hlocateA : crossed.locate ⟨"/A.sol"⟩ = .ok ⟨["A.sol"], true⟩ :=
    crossed_locate ⟨by decide, by decide, by decide⟩ rfl (Or.inl (by decide)) (by decide)
      (by decide)
  have hlocateB : crossed.locate ⟨"/B.sol"⟩ = .ok ⟨["B.sol"], true⟩ :=
    crossed_locate ⟨by decide, by decide, by decide⟩ rfl (Or.inl (by decide)) (by decide)
      (by decide)
  have hreadA := FileTree.read_eq_ok_iff.mpr
    (FileTree.stat_eq_ok_iff.mpr ⟨_, hlocateA, rfl, rfl⟩)
  have hreadB := FileTree.read_eq_ok_iff.mpr
    (FileTree.stat_eq_ok_iff.mpr ⟨_, hlocateB, rfl, rfl⟩)
  have hAB : Import.resolve? crossed ⟨[]⟩ ⟨"/"⟩ ⟨"/A.sol"⟩ "./B.sol" = some ⟨"/B.sol"⟩ :=
    crossed_resolve _ _ "B.sol" (by decide) rfl
      (crossed_locate ⟨by decide, by decide, by decide⟩ rfl (Or.inr (by decide)) (by decide)
        (by decide))
  have hBA : Import.resolve? crossed ⟨[]⟩ ⟨"/"⟩ ⟨"/B.sol"⟩ "./A.sol" = some ⟨"/A.sol"⟩ :=
    crossed_resolve _ _ "A.sol" (by decide) rfl
      (crossed_locate ⟨by decide, by decide, by decide⟩ rfl (Or.inr (by decide)) (by decide)
        (by decide))
  obtain ⟨-, hnodup, hmem, -, hstrict, -, -⟩ :=
    sources_of_imports Outline.read crossed ⟨[]⟩ ⟨"/"⟩ distinct
  have himportsA : (Outline.read (Path.display ⟨"/"⟩ ⟨"/A.sol"⟩) (Text.ofBytesLossy
      (Text.toBytes "import \"./B.sol\";contract A{}".toList))).imports = ["./B.sol"] := by
    decide +kernel
  have himportsB : (Outline.read (Path.display ⟨"/"⟩ ⟨"/B.sol"⟩) (Text.ofBytesLossy
      (Text.toBytes "import \"./A.sol\";contract Z{}contract Y{}".toList))).imports =
        ["./A.sol"] := by
    decide +kernel
  have hreachedA : Source.Reached Outline.read crossed ⟨[]⟩ ⟨"/"⟩ [⟨"/A.sol"⟩] ⟨"/A.sol"⟩ :=
    .seed List.mem_cons_self
  have hreachedB : Source.Reached Outline.read crossed ⟨[]⟩ ⟨"/"⟩ [⟨"/A.sol"⟩] ⟨"/B.sol"⟩ :=
    .imported hreachedA hreadA (by rw [himportsA]; exact List.mem_cons_self) hAB
  have hstat : crossed.stat ⟨"/A.sol"⟩ = .ok _ := FileTree.read_eq_ok_iff.mp hreadA
  have hcanonicalA : crossed.canonicalize ⟨"/A.sol"⟩ = .ok ⟨"/A.sol"⟩ :=
    FileTree.canonicalize_eq_ok_iff.mpr ⟨_, hlocateA, rfl, rfl⟩
  have hlocateRoot : crossed.locate ⟨"/"⟩ = .ok ⟨[], true⟩ := by
    refine FileTree.locate_eq_ok_iff.mpr ⟨⟨by decide, by decide, by decide⟩, ?_⟩
    have hparts : (Path.parts "/".toList).map String.ofList = ["", ""] := by decide
    rw [hparts, FileTree.follow_skip (Or.inl rfl), FileTree.follow_skip (Or.inl rfl)]
    exact FileTree.follow.eq_1 crossed _ _
  have hcanonicalRoot : crossed.canonicalize ⟨"/"⟩ = .ok ⟨"/"⟩ :=
    FileTree.canonicalize_eq_ok_iff.mpr ⟨_, hlocateRoot, rfl, rfl⟩
  have hfind : Sources.find crossed ⟨"/A.sol"⟩ [] = [⟨"/A.sol"⟩] := by
    rw [Sources.find, Sources.findBy, hstat]
    decide
  have hlocate : Project.locate crossed { target := ⟨"/A.sol"⟩, root := ⟨"/"⟩ } =
      .ok (⟨"/"⟩, [⟨"/A.sol"⟩]) := by
    have hseeds : (Sources.find crossed ⟨"/A.sol"⟩ []).filterMap
        (fun f => (crossed.canonicalize f).toOption) = [⟨"/A.sol"⟩] := by
      simp [hfind, hcanonicalA, Except.toOption]
    have hdirectory : (if ("/" : String).isEmpty then (⟨"."⟩ : Path) else ⟨"/"⟩) = ⟨"/"⟩ := by
      decide
    simp only [locate, hstat, hdirectory, hcanonicalRoot, hseeds]
    rfl
  have hcanonical : ∀ s ∈ [(⟨"/A.sol"⟩ : Path)], crossed.IsCanonical s :=
    (canonical_of_locate crossed_wellFormed hlocate).2
  refine ⟨distinct, crossed_wellFormed, hlocate, _, rfl, hnodup, ?_, ?_,
    hstrict crossed_wellFormed hcanonical⟩
  · refine ⟨⟨_, _⟩, (hmem _ _).mpr ⟨hreachedA, _, hreadA, rfl, rfl⟩, ?_⟩
    simp only [himportsA, List.filterMap_cons, hAB, List.filterMap_nil]
  · refine ⟨⟨_, _⟩, (hmem _ _).mpr ⟨hreachedB, _, hreadB, rfl, rfl⟩, ?_, by decide +kernel⟩
    simp only [himportsB, List.filterMap_cons, hBA, List.filterMap_nil]

end Project

end TokenAudit
