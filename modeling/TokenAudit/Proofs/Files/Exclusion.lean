import Mathlib.Data.List.Sort
import TokenAudit.Proofs.Files.IgnoreRules
import TokenAudit.Proofs.Files.Nesting
import TokenAudit.Proofs.Files.PathOrder
import TokenAudit.Proofs.Files.Relative
import TokenAudit.Proofs.Files.Sources
import TokenAudit.Proofs.Files.Walk

/-! A search below a directory gives the sources on the way to which nothing is left out, in the
order of their paths, less those that a pattern matches from the directory on. More patterns leave
out more, unless no matcher can be built of them all. -/

namespace TokenAudit.Sources

variable {t : FileTree} {target p : Path} {s : String}
variable {names patterns more : List String} {children : List (String × Entry)}
variable {builds : List Glob → Bool}

/-- The names lead from the directory `target`, which has these children, to a file, and nothing on
the way is left out. The target is not called `-`, which would stand for the standard input. -/
def Visits (t : FileTree) (target : Path) (children : List (String × Entry))
    (names : List String) : Prop :=
  target.components ≠ [.name "-"] ∧ ∃ child e rest, names = child :: rest ∧ (child, e) ∈ children ∧
    Reaches t (IgnoreRules.ofTarget t target) (target.child child) child e rest

theorem Visits.not_mem (h : Visits t target children names) : "node_modules" ∉ names := by
  obtain ⟨-, child, e, rest, rfl, -, hreaches⟩ := h
  exact hreaches.not_mem

theorem mem_belowTarget_iff (hchildren : ∀ c ∈ children, c.2.WellFormed) :
    p ∈ belowTarget t target children ↔
      ∃ names, Visits t target children names ∧ p = target.below names ∧ p.isSolidity = true := by
  unfold belowTarget isStandardInput
  split_ifs with hinput
  · constructor
    · intro hp
      cases hp
    · intro h
      obtain ⟨names, ⟨hsearched, -⟩, -⟩ := h
      exact absurd (beq_iff_eq.mp hinput) hsearched
  · have hsearched : target.components ≠ [.name "-"] := fun h => hinput (beq_iff_eq.mpr h)
    rw [amongChildren_eq_flatMap, List.mem_flatMap]
    constructor
    · intro h
      obtain ⟨c, hc, hp⟩ := h
      obtain ⟨names, hreaches, hbelow, hsource⟩ := (mem_under_iff (hchildren c hc)).mp hp
      exact ⟨c.1 :: names, ⟨hsearched, c.1, c.2, names, rfl, hc, hreaches⟩, hbelow, hsource⟩
    · intro h
      obtain ⟨names, ⟨-, child, e, rest, rfl, hc, hreaches⟩, hbelow, hsource⟩ := h
      exact ⟨_, hc, (mem_under_iff (hchildren _ hc)).mpr ⟨rest, hreaches, hbelow, hsource⟩⟩

/-- Some pattern that can be read matches the text of the names. -/
def Matched (patterns names : List String) : Prop :=
  ∃ s ∈ patterns, ∃ g, Glob.read .opensClass false s.toList = .ok g ∧
    g.isMatch (Text.toBytes (Path.joined names)) = true

theorem mem_globs_iff {g : Glob} :
    g ∈ globs patterns ↔ ∃ s ∈ patterns, Glob.read .opensClass false s.toList = .ok g := by
  unfold globs
  rw [List.mem_filterMap]
  refine exists_congr fun s => and_congr_right fun _ => ?_
  cases Glob.read .opensClass false s.toList <;> simp [Except.toOption]

theorem matched_iff_any : Matched patterns names ↔
    (globs patterns).any (·.isMatch (Text.toBytes (Path.joined names))) = true := by
  rw [List.any_eq_true]
  constructor
  · rintro ⟨s, hs, g, hread, hmatch⟩
    exact ⟨g, mem_globs_iff.mpr ⟨s, hs, hread⟩, hmatch⟩
  · rintro ⟨g, hg, hmatch⟩
    obtain ⟨s, hs, hread⟩ := mem_globs_iff.mp hg
    exact ⟨s, hs, g, hread, hmatch⟩

instance : Decidable (Matched patterns names) := decidable_of_iff _ matched_iff_any.symm

/-- Patterns see a path as the names that lead to it from the target. -/
theorem isExcluded_below_iff (hn : ∀ n ∈ names, IsName n) (hne : names ≠ []) :
    isExcluded (globs patterns) target (target.below names) = true ↔ Matched patterns names := by
  rw [isExcluded, Path.stripPrefix?_below hn hne, Option.getD_some, matched_iff_any]
  rfl

theorem matched_append :
    Matched (patterns ++ more) names ↔ Matched patterns names ∨ Matched more names := by
  simp only [Matched, List.mem_append, or_and_right, exists_or]

theorem isExcluded_excluding_iff (hn : ∀ n ∈ names, IsName n) (hne : names ≠ []) :
    isExcluded (excluding builds patterns) target (target.below names) = true ↔
      builds (globs patterns) = true ∧ Matched patterns names := by
  unfold excluding
  split
  · next hbuilds => simp [hbuilds, isExcluded_below_iff hn hne]
  · next hbuilds => simp [hbuilds, isExcluded]

/-- A pattern that cannot be read says nothing, wherever it stands. -/
theorem globs_insert {error : GlobError} (h : Glob.read .opensClass false s.toList = .error error)
    (patterns more : List String) : globs (patterns ++ s :: more) = globs (patterns ++ more) := by
  simp [globs, h, Except.toOption]

/-- The file at `p` is left out by a pattern. -/
def Excludes (target : Path) (children : List (String × Entry)) (patterns : List String)
    (p : Path) : Prop :=
  ∃ names, Leads (.directory children) target names p ∧ Matched patterns names

theorem excludes_below_iff (hw : (Entry.directory children).WellFormed)
    (h : Leads (.directory children) target names p) :
    Excludes target children patterns p ↔ Matched patterns names := by
  constructor
  · rintro ⟨names', ⟨⟨bytes', hfile'⟩, rfl⟩, hmatched⟩
    obtain ⟨⟨bytes, hfile⟩, hpath⟩ := h
    rwa [below_injective (hw.at? hfile).1 (hw.at? hfile').1 hpath.symm]
  · exact fun hmatched => ⟨names, h, hmatched⟩

section Directory

variable (hw : t.root.WellFormed) (hs : t.stat target = .ok (.directory children))

include hw hs

theorem wellFormed_of_stat : (Entry.directory children).WellFormed := by
  obtain ⟨place, -, -, hentry⟩ := FileTree.stat_eq_ok_iff.mp hs
  exact (hw.at? hentry).2

theorem Visits.leads (h : Visits t target children names) :
    Leads (.directory children) target names (target.below names) := by
  obtain ⟨-, child, e, rest, rfl, hc, hreaches⟩ := h
  cases wellFormed_of_stat hw hs with
  | directory hnodup _ hchildren =>
    exact (hreaches.leads (hchildren _ hc)).child hnodup hc

theorem Visits.isName (h : Visits t target children names) :
    names ≠ [] ∧ ∀ n ∈ names, IsName n := by
  obtain ⟨⟨bytes, hfile⟩, -⟩ := h.leads hw hs
  refine ⟨?_, ((wellFormed_of_stat hw hs).at? hfile).1⟩
  rintro rfl
  cases hfile

theorem mem_findBy_iff : p ∈ findBy builds t target patterns ↔
    ∃ names, Visits t target children names ∧ p = target.below names ∧ p.isSolidity = true ∧
      ¬ (builds (globs patterns) = true ∧ Matched patterns names) := by
  cases wellFormed_of_stat hw hs with
  | directory _ _ hchildren =>
    rw [findBy_eq_mergeSort builds hs, List.mem_mergeSort, List.mem_filter,
      mem_belowTarget_iff hchildren, Bool.not_eq_true', ← Bool.not_eq_true]
    constructor
    · rintro ⟨⟨names, hvisits, rfl, hsource⟩, hkept⟩
      obtain ⟨hne, hn⟩ := hvisits.isName hw hs
      rw [isExcluded_excluding_iff hn hne] at hkept
      exact ⟨names, hvisits, rfl, hsource, hkept⟩
    · rintro ⟨names, hvisits, rfl, hsource, hkept⟩
      obtain ⟨hne, hn⟩ := hvisits.isName hw hs
      rw [← isExcluded_excluding_iff hn hne] at hkept
      exact ⟨⟨names, hvisits, rfl, hsource⟩, hkept⟩

theorem pairwise_findBy : (findBy builds t target patterns).Pairwise Path.Before := by
  have hsorted : (findBy builds t target patterns).Pairwise fun p q => Path.le p q = true := by
    rw [findBy_eq_mergeSort builds hs]
    apply List.pairwise_mergeSort
    · exact fun p q r => Path.le_trans
    · exact Path.le_total
  have hnodup := (found_findBy hw builds target patterns).nodup
  refine (hsorted.and hnodup).imp_of_mem fun {p q} hp hq h => ?_
  obtain ⟨names, hvisits, rfl, -⟩ := (mem_findBy_iff hw hs).mp hp
  obtain ⟨names', hvisits', rfl, -⟩ := (mem_findBy_iff hw hs).mp hq
  obtain ⟨-, hn⟩ := hvisits.isName hw hs
  obtain ⟨-, hn'⟩ := hvisits'.isName hw hs
  refine Path.before_of_le h.1 fun hsame => h.2 ?_
  rw [Path.components_below hn, Path.components_below hn'] at hsame
  rw [FileTree.eq_of_map_name (List.append_cancel_left hsame)]

theorem mem_findBy_append_iff (hbuilds : builds (globs patterns) = true)
    (hboth : builds (globs (patterns ++ more)) = true) :
    p ∈ findBy builds t target (patterns ++ more) ↔
      p ∈ findBy builds t target patterns ∧ ¬ Excludes target children more p := by
  have hwell := wellFormed_of_stat hw hs
  simp only [mem_findBy_iff hw hs, hbuilds, hboth, true_and, matched_append, not_or]
  constructor
  · rintro ⟨names, hvisits, rfl, hsource, hkept, hmore⟩
    exact ⟨⟨names, hvisits, rfl, hsource, hkept⟩,
      mt (excludes_below_iff hwell (hvisits.leads hw hs)).mp hmore⟩
  · rintro ⟨⟨names, hvisits, rfl, hsource, hkept⟩, hmore⟩
    exact ⟨names, hvisits, rfl, hsource, hkept,
      mt (excludes_below_iff hwell (hvisits.leads hw hs)).mpr hmore⟩

open Classical in
theorem findBy_append_eq_filter (hbuilds : builds (globs patterns) = true)
    (hboth : builds (globs (patterns ++ more)) = true) :
    findBy builds t target (patterns ++ more) =
      (findBy builds t target patterns).filter fun p => ¬ Excludes target children more p := by
  have hmem : ∀ p, p ∈ findBy builds t target (patterns ++ more) ↔
      p ∈ (findBy builds t target patterns).filter fun p => ¬ Excludes target children more p := by
    intro p
    rw [mem_findBy_append_iff hw hs hbuilds hboth, List.mem_filter, decide_eq_true_eq]
  exact List.Subset.antisymm_of_pairwise (pairwise_findBy hw hs)
    ((pairwise_findBy hw hs).filter _) (fun p => (hmem p).mp) fun p => (hmem p).mpr

end Directory

theorem findBy_congr (h : excluding builds patterns = excluding builds more) :
    findBy builds t target patterns = findBy builds t target more := by
  unfold findBy
  rw [h]

/-- Patterns of which no matcher can be built leave nothing out. -/
theorem findBy_of_not_builds (h : builds (globs patterns) = false) :
    findBy builds t target patterns = findBy builds t target [] := by
  refine findBy_congr ?_
  have hnone : globs [] = [] := rfl
  simp [excluding, h, hnone]

theorem findBy_insert {error : GlobError} (h : Glob.read .opensClass false s.toList = .error error)
    (patterns more : List String) :
    findBy builds t target (patterns ++ s :: more) = findBy builds t target (patterns ++ more) := by
  refine findBy_congr ?_
  rw [excluding, excluding, globs_insert h]

/-- A search below a directory gives, strictly in the order of their paths, sources that are files
below it and not in a directory of installed packages: those to which it comes and which no pattern
leaves out. Further patterns leave out what they match and nothing else, if a matcher can be built
of all; if none can be built, nothing is left out. A pattern that cannot be read says nothing. -/
theorem findBy_append (hw : t.root.WellFormed) (hs : t.stat target = .ok (.directory children))
    (builds : List Glob → Bool) (patterns more : List String) :
    (findBy builds t target patterns).Pairwise Path.Before ∧
      (∀ p ∈ findBy builds t target patterns, ∃ names,
        Leads (.directory children) target names p ∧ p.isSolidity = true ∧
          "node_modules" ∉ names) ∧
      (∀ p, p ∈ findBy builds t target patterns ↔ ∃ names, Visits t target children names ∧
        p = target.below names ∧ p.isSolidity = true ∧
          ¬ (builds (globs patterns) = true ∧ Matched patterns names)) ∧
      (builds (globs patterns) = true → builds (globs (patterns ++ more)) = true →
        open Classical in findBy builds t target (patterns ++ more) =
          (findBy builds t target patterns).filter fun p => ¬ Excludes target children more p) ∧
      (builds (globs patterns) = false →
        findBy builds t target patterns = findBy builds t target []) ∧
      ∀ s error, Glob.read .opensClass false s.toList = .error error →
        findBy builds t target (patterns ++ s :: more) =
          findBy builds t target (patterns ++ more) := by
  refine ⟨pairwise_findBy hw hs, fun p hp => ?_, fun p => mem_findBy_iff hw hs,
    fun hbuilds hboth => ?_, findBy_of_not_builds, fun s error h => findBy_insert h patterns more⟩
  · obtain ⟨names, hvisits, rfl, hsource, -⟩ := (mem_findBy_iff hw hs).mp hp
    exact ⟨names, hvisits.leads hw hs, hsource, hvisits.not_mem⟩
  · exact findBy_append_eq_filter hw hs hbuilds hboth

/-- A source, and another one in a directory. -/
def stocked : FileTree where
  root := .directory [("Token.sol", .file []), ("mocks", .directory [("Mock.sol", .file [])])]

theorem stocked_wellFormed : stocked.root.WellFormed := by
  refine .directory (by decide) (by decide) ?_
  rw [List.forall_mem_cons, List.forall_mem_singleton]
  refine ⟨.file _, .directory (by decide) (by decide) ?_⟩
  rw [List.forall_mem_singleton]
  exact .file _

theorem stat_stocked : stocked.stat ⟨"/"⟩ = .ok (.directory stocked.root.children) := by
  have hwhere : stocked.whereabouts? ⟨"/"⟩ = some [] := by decide
  exact FileTree.stat_of_whereabouts? hwhere rfl

theorem stocked_ruleless : stocked.Ruleless := by
  intro location bytes hentry
  have hmem := Entry.append_mem_files hentry []
  have hfiles : stocked.root.files [] = [["Token.sol"], ["mocks", "Mock.sol"]] := by decide
  rw [hfiles, List.nil_append] at hmem
  rcases List.mem_cons.mp hmem with rfl | hmem
  · cases hentry
    exact IgnoreRule.ofFile_nil
  · obtain rfl := List.mem_singleton.mp hmem
    cases hentry
    exact IgnoreRule.ofFile_nil

theorem visits_stocked : Visits stocked ⟨"/"⟩ stocked.root.children ["mocks", "Mock.sol"] := by
  have hsilent := IgnoreRules.silent_ofTarget stocked_ruleless ⟨"/"⟩
  have hinside := hsilent.enter stocked_ruleless (Path.child ⟨"/"⟩ "mocks")
  refine ⟨by decide, "mocks", _, ["Mock.sol"], rfl, List.mem_cons_of_mem _ List.mem_cons_self,
    .inside ?_ List.mem_cons_self (.file ?_)⟩
  · rw [isLeftOut, hsilent.verdict?]
    decide
  · rw [isLeftOut, hinside.verdict?]
    decide

theorem below_stocked : Path.below ⟨"/"⟩ ["mocks", "Mock.sol"] = ⟨"/mocks/Mock.sol"⟩ := by
  decide

theorem matched_stocked : Matched ["mocks/**"] ["mocks", "Mock.sol"] := by
  decide +kernel

theorem excludes_stocked (h : Matched patterns ["mocks", "Mock.sol"]) :
    Excludes ⟨"/"⟩ stocked.root.children patterns ⟨"/mocks/Mock.sol"⟩ := by
  have hleads := visits_stocked.leads stocked_wellFormed stat_stocked
  rw [below_stocked] at hleads
  exact ⟨_, hleads, h⟩

/-- A further pattern leaves out what it matches, and one that cannot be read says nothing. -/
theorem findBy_append_stocked :
    stocked.root.WellFormed ∧ stocked.stat ⟨"/"⟩ = .ok (.directory stocked.root.children) ∧
      Glob.areBuildable (globs ["["]) = true ∧
      Glob.areBuildable (globs (["["] ++ ["mocks/**"])) = true ∧
      (∃ error, Glob.read .opensClass false "[".toList = .error error) ∧
      ⟨"/mocks/Mock.sol"⟩ ∈ find stocked ⟨"/"⟩ ["["] ∧
      ⟨"/mocks/Mock.sol"⟩ ∉ find stocked ⟨"/"⟩ (["["] ++ ["mocks/**"]) ∧
      find stocked ⟨"/"⟩ (["["] ++ "[" :: ["mocks/**"]) =
        find stocked ⟨"/"⟩ (["["] ++ ["mocks/**"]) := by
  have hbuilds : Glob.areBuildable (globs ["["]) = true := by decide +kernel
  have hboth : Glob.areBuildable (globs (["["] ++ ["mocks/**"])) = true := by decide +kernel
  have hinvalid : Glob.read .opensClass false "[".toList = .error .unclosedClass := by
    simp [Glob.read, Glob.readFrom, Glob.readClass, Glob.ClassReading.read, bind, Except.bind]
  obtain ⟨-, -, hmem, hfilter, -, hinsert⟩ := findBy_append stocked_wellFormed stat_stocked
    Glob.areBuildable ["["] ["mocks/**"]
  refine ⟨stocked_wellFormed, stat_stocked, hbuilds, hboth, ⟨_, hinvalid⟩, ?_, ?_,
    hinsert _ _ hinvalid⟩
  · refine (hmem _).mpr ⟨_, visits_stocked, below_stocked.symm, by decide, ?_⟩
    have hnone : ¬ Matched ["["] ["mocks", "Mock.sol"] := by decide +kernel
    exact fun h => hnone h.2
  · show _ ∉ findBy Glob.areBuildable stocked ⟨"/"⟩ (["["] ++ ["mocks/**"])
    rw [hfilter hbuilds hboth, List.mem_filter]
    simpa using fun _ => excludes_stocked matched_stocked

/-- One pattern that is nested too deep puts all of them out of force. -/
theorem find_of_nested {n : Nat} (hn : Glob.maxDepth ≤ n) (hmem : Glob.nested n ∈ patterns) :
    find t target patterns = find t target [] := by
  have hglob : ⟨[Glob.nest n], false⟩ ∈ globs patterns :=
    mem_globs_iff.mpr ⟨_, hmem, Glob.read_nested false n⟩
  exact findBy_of_not_builds (Glob.not_areBuildable_of_nest hn hglob)

/-- Next to a pattern that can be read but is nested too deep, another one does not leave out what
it matches. -/
theorem stocked_mock_kept :
    stocked.root.WellFormed ∧ stocked.stat ⟨"/"⟩ = .ok (.directory stocked.root.children) ∧
      (∃ g, Glob.read .opensClass false (Glob.nested 300).toList = .ok g) ∧
      Matched ["mocks/**"] ["mocks", "Mock.sol"] ∧
      ⟨"/mocks/Mock.sol"⟩ ∈ find stocked ⟨"/"⟩ ([] ++ [Glob.nested 300, "mocks/**"]) ∧
      open Classical in ¬ find stocked ⟨"/"⟩ ([] ++ [Glob.nested 300, "mocks/**"]) =
        (find stocked ⟨"/"⟩ []).filter fun p =>
          ¬ Excludes ⟨"/"⟩ stocked.root.children [Glob.nested 300, "mocks/**"] p := by
  have hkept : ⟨"/mocks/Mock.sol"⟩ ∈ find stocked ⟨"/"⟩ ([] ++ [Glob.nested 300, "mocks/**"]) := by
    rw [List.nil_append, @find_of_nested _ _ _ 300 (by decide) List.mem_cons_self]
    refine (mem_findBy_iff stocked_wellFormed stat_stocked).mpr
      ⟨_, visits_stocked, below_stocked.symm, by decide, ?_⟩
    rintro ⟨-, s, hs, -⟩
    cases hs
  refine ⟨stocked_wellFormed, stat_stocked, ⟨_, Glob.read_nested false 300⟩, matched_stocked, hkept,
    fun hsame => ?_⟩
  have hexcluded : Excludes ⟨"/"⟩ stocked.root.children [Glob.nested 300, "mocks/**"]
      ⟨"/mocks/Mock.sol"⟩ :=
    excludes_stocked ((@matched_append _ [Glob.nested 300] ["mocks/**"]).mpr (Or.inr matched_stocked))
  rw [hsame, List.mem_filter] at hkept
  exact absurd hexcluded (by simpa using hkept.2)

end TokenAudit.Sources
