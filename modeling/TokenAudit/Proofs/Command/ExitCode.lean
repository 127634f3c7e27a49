import TokenAudit.Proofs.Command.Loading
import TokenAudit.Proofs.Contract.Snapshot
import TokenAudit.Proofs.Files.Walk
import TokenAudit.Proofs.Rule.Audit
import TokenAudit.Proofs.Rule.OriginUse

/-! How the command ends: without an audit if there is no model or it cannot be exported, else with
the verdict of the scan for the origin of a transaction, whatever else is found, printed or
written. -/

namespace TokenAudit

namespace OriginUse

variable {t : FileTree} {root : Path} {dirs : List String}

/-- Below some scan root that is a directory a source uses the origin of a transaction. -/
def Occurs (t : FileTree) (root : Path) (dirs : List String) : Prop :=
  ∃ dir ∈ dirs, t.isDirectory (root.join ⟨dir⟩) = true ∧
    ∃ names bytes, UsesOrigin t (root.join ⟨dir⟩) names bytes

theorem scan_ne_nil_iff (hw : t.root.WellFormed) : scan t root dirs ≠ [] ↔ Occurs t root dirs := by
  have hscan : scan t root dirs ≠ [] ↔ ∃ dir ∈ dirs, ∃ path, path ∈ hitsIn t root dir := by
    rw [scan, Ne, List.map_eq_nil_iff, List.flatMap_eq_nil_iff]
    simp only [List.eq_nil_iff_forall_not_mem, not_forall, not_not, exists_prop]
  rw [hscan, Occurs]
  refine exists_congr fun dir => and_congr_right fun _ => ?_
  by_cases hd : t.isDirectory (root.join ⟨dir⟩) = true
  · have hfinds := (finds_hitsIn hw root dir hd).mem_iff
    constructor
    · intro h
      obtain ⟨path, hpath⟩ := h
      obtain ⟨names, bytes, huses, -⟩ := (hfinds path).mp hpath
      exact ⟨hd, names, bytes, huses⟩
    · intro h
      obtain ⟨-, names, bytes, huses⟩ := h
      exact ⟨_, (hfinds _).mpr ⟨names, bytes, huses, rfl⟩⟩
  · simp [hitsIn_eq_nil hd, hd]

theorem check_eq_nil_iff : check t root dirs = [] ↔ scan t root dirs = [] := by
  unfold check
  cases scan t root dirs <;> simp

end OriginUse

theorem Snapshot.save_of_unwritable {model : Snapshot} {t : FileTree} {path : Path} {e : FileError}
    (hwrite : t.write path (Text.toBytes model.print.toList) = .error e) :
    model.save t path = .error (.unusable path e) := by
  unfold save
  rw [hwrite]
  rfl

namespace Audit

variable {t : FileTree} {root : Path} {s : Settings} {contracts : List Contract}

/-- A run passes exactly if the scan finds nothing, whatever the other rules find. -/
theorem passed_iff :
    (run t root s contracts).report.passed = true ↔
      OriginUse.scan t root s.scanDirectories = [] := by
  have hfailures : (run t root s contracts).report.failures =
      failuresOf ((OriginUse.check t root s.scanDirectories).map Issue.finding) := by
    have hreport : (run t root s contracts).report.failures =
        failuresOf (ledger t root s contracts).shown := failures_reportOn balanced_ledger
    -- The other rules only warn.
    rw [hreport, shown_ledger, failuresOf_issues]
  have hpassed : (run t root s contracts).report.passed =
      (run t root s contracts).report.failures.isEmpty := rfl
  rw [hpassed, hfailures, List.isEmpty_iff, ← OriginUse.check_eq_nil_iff, failuresOf,
    List.filter_eq_nil_iff, List.forall_mem_map]
  constructor
  · intro hnone
    refine List.eq_nil_iff_forall_not_mem.mpr fun i hi => hnone i hi ?_
    have hrule := rule_of_mem_originUse hi
    rcases i.severity_eq with ⟨hs, -⟩ | ⟨-, hr⟩
    · exact decide_eq_true (i.severity_finding.trans hs)
    · exact absurd hrule hr
  · intro hnone i hi
    rw [hnone] at hi
    exact absurd hi List.not_mem_nil

end Audit

namespace Check

variable {t t' : FileTree} {a : Arguments} {model : Snapshot}

/-- There is no model, or the text of it cannot be written where it should be exported. -/
inductive Fails (t : FileTree) (a : Arguments) : Prop
  | unloaded {e : LoadError} (hl : Loads t a (.error e))
  | unsaved {model : Snapshot} {path : String} {e : FileError} (hl : Loads t a (.ok model))
      (hx : a.exportModel = some path)
      (hwrite : t.write ⟨path⟩ (Text.toBytes model.print.toList) = .error e)

/-- The model that is audited, and the files at that time. -/
inductive Audits (t : FileTree) (a : Arguments) : Snapshot → FileTree → Prop
  | plain {model : Snapshot} (hl : Loads t a (.ok model)) (hx : a.exportModel = none) :
      Audits t a model t
  | exported {model : Snapshot} {path : String} {t' : FileTree} (hl : Loads t a (.ok model))
      (hx : a.exportModel = some path)
      (hwrite : t.write ⟨path⟩ (Text.toBytes model.print.toList) = .ok t') : Audits t a model t'

/-- At the time of the audit, with the files in `t'`, a source below a scan root of the project uses
the origin. -/
def OriginUsed (t : FileTree) (a : Arguments) (t' : FileTree) : Prop :=
  ∃ root s, IsRoot t a root ∧ Settings.At t root s ∧ OriginUse.Occurs t' root s.scanDirectories

theorem originUsed_iff : OriginUsed t a t' ↔
    OriginUse.Occurs t' (rootOf t a) (Settings.load t (rootOf t a)).scanDirectories := by
  constructor
  · intro h
    obtain ⟨root, s, hroot, hsettings, hoccurs⟩ := h
    rw [isRoot_iff.mp hroot] at hsettings hoccurs
    rwa [Settings.at_iff.mp hsettings] at hoccurs
  · intro h
    exact ⟨_, _, isRoot_rootOf t a, Settings.at_load t (rootOf t a), h⟩

/-- The scan roots of a project are those that its settings file gives. -/
theorem originUsed_of_scanText {root : Path} {dirs : List String} (hroot : IsRoot t a root)
    (hread : t.readText (root.child "trexlint.json") = .ok (Settings.scanText dirs)) :
    OriginUsed t a t' ↔ OriginUse.Occurs t' root dirs := by
  have hsettings := Settings.at_iff.mp (Settings.at_of_scanText hread)
  rw [originUsed_iff, ← isRoot_iff.mp hroot, ← hsettings]

theorem fails_or_audits (t : FileTree) (a : Arguments) :
    Fails t a ∨ ∃ model t', Audits t a model t' := by
  cases hr : loadModel t a (rootOf t a) (Settings.load t (rootOf t a)) with
  | error e => exact Or.inl (.unloaded (loads_iff.mpr hr.symm))
  | ok model =>
    have hl : Loads t a (.ok model) := loads_iff.mpr hr.symm
    cases hx : a.exportModel with
    | none => exact Or.inr ⟨model, t, .plain hl hx⟩
    | some path =>
      cases hwrite : t.write ⟨path⟩ (Text.toBytes model.print.toList) with
      | error e => exact Or.inl (.unsaved hl hx hwrite)
      | ok t' => exact Or.inr ⟨model, t', .exported hl hx hwrite⟩

theorem check_of_loads_ok (hl : Loads t a (.ok model)) :
    check t a = checkModel t a (rootOf t a) (Settings.load t (rootOf t a)) model := by
  have hload := (loads_iff.mp hl).symm
  unfold check
  dsimp only
  rw [hload]

theorem check_of_loads_error {e : LoadError} (hl : Loads t a (.error e)) :
    check t a = { exitCode := 2, files := t
                  messages := s!"trexlint: failed to load contract model: {e.message}\n" } := by
  have hload := (loads_iff.mp hl).symm
  unfold check
  dsimp only
  rw [hload]

theorem check_of_fails (h : Fails t a) :
    (check t a).exitCode = 2 ∧ (check t a).output = "" ∧ (check t a).files = t := by
  cases h with
  | unloaded hl =>
    rw [check_of_loads_error hl]
    exact ⟨rfl, rfl, rfl⟩
  | unsaved hl hx hwrite =>
    rw [check_of_loads_ok hl, checkModel]
    simp only [hx, Snapshot.save_of_unwritable hwrite]
    exact ⟨trivial, trivial, trivial⟩

/-- An audit decides on the exit code and on all that is printed, whatever becomes of the report. -/
theorem check_of_audits (h : Audits t a model t') :
    (check t a).exitCode =
        (audit t' a (rootOf t a) (Settings.load t (rootOf t a)) model).report.exitCode ∧
      (check t a).output =
        output (formatOf a) (audit t' a (rootOf t a) (Settings.load t (rootOf t a)) model).findings
          (audit t' a (rootOf t a) (Settings.load t (rootOf t a)) model).report := by
  cases h with
  | plain hl hx =>
    rw [check_of_loads_ok hl, checkModel]
    simp only [hx]
    exact ⟨trivial, trivial⟩
  | exported hl hx hwrite =>
    rw [check_of_loads_ok hl, checkModel]
    simp only [hx, Snapshot.save_eq_ok.mpr hwrite]
    exact ⟨trivial, trivial⟩

theorem exitCode_of_audits (h : Audits t a model t') :
    (check t a).exitCode =
      (Audit.run t' (rootOf t a) (Settings.load t (rootOf t a))
        model.contracts).report.exitCode :=
  (check_of_audits h).1

/-- Exporting the model keeps the tree a tree. -/
theorem Audits.wellFormed (hw : t.root.WellFormed) (hn : ∀ n ∈ t.workingDirectory, IsName n)
    (h : Audits t a model t') : t'.root.WellFormed := by
  cases h with
  | plain => exact hw
  | exported _ _ hwrite => exact FileTree.wellFormed_of_write hw hn hwrite

/-- An audit ends in one of two ways, and the scan alone decides which. -/
theorem exitCode_cases (h : Audits t a model t') (hw : t'.root.WellFormed) :
    ((check t a).exitCode = 0 ∧ ¬ OriginUsed t a t') ∨
      ((check t a).exitCode = 1 ∧ OriginUsed t a t') := by
  have hpassed : (Audit.run t' (rootOf t a) (Settings.load t (rootOf t a))
      model.contracts).report.passed = true ↔ ¬ OriginUsed t a t' := by
    rw [Audit.passed_iff, originUsed_iff, ← OriginUse.scan_ne_nil_iff hw, not_not]
  rw [exitCode_of_audits h, Report.exitCode]
  split_ifs with hp
  · exact Or.inl ⟨rfl, hpassed.mp hp⟩
  · exact Or.inr ⟨rfl, not_not.mp fun hnone => hp (hpassed.mpr hnone)⟩

/-- Nothing that concerns only what is shown decides on the model. -/
theorem Loads.shown {r : Except LoadError Snapshot} (h : Loads t a r) (json verbose : Bool)
    (report : Option String) : Loads t { a with json, verbose, report } r := by
  have hsame : loadModel t { a with json, verbose, report } (rootOf t a)
      (Settings.load t (rootOf t a)) = loadModel t a (rootOf t a) (Settings.load t (rootOf t a)) :=
    rfl
  exact loads_iff.mpr ((loads_iff.mp h).trans hsame.symm)

theorem exitCode_shown (t : FileTree) (a : Arguments) (json verbose : Bool)
    (report : Option String) :
    (check t { a with json, verbose, report }).exitCode = (check t a).exitCode := by
  rcases fails_or_audits t a with h | ⟨model, t', h⟩
  · have hother : Fails t { a with json, verbose, report } := by
      cases h with
      | unloaded hl => exact .unloaded (hl.shown json verbose report)
      | unsaved hl hx hwrite => exact .unsaved (hl.shown json verbose report) hx hwrite
    rw [(check_of_fails h).1, (check_of_fails hother).1]
  · have hother : Audits t { a with json, verbose, report } model t' := by
      cases h with
      | plain hl hx => exact .plain (hl.shown json verbose report) hx
      | exported hl hx hwrite => exact .exported (hl.shown json verbose report) hx hwrite
    rw [exitCode_of_audits h, exitCode_of_audits hother]
    rfl

/-- The command ends with 2 exactly if there is no audit, and then nothing is printed and the files
are as before. Otherwise it ends with 1 if below some scan root a source uses the origin of a
transaction once the model has been exported, and with 0 if none does. The scan roots are those that
the settings file names. What is shown of the audit, and whether the report on it can be written,
plays no part. -/
theorem exitCode_check (hw : t.root.WellFormed) (hn : ∀ n ∈ t.workingDirectory, IsName n)
    (a : Arguments) :
    ((check t a).exitCode = 2 ↔ Fails t a) ∧
      (Fails t a → (check t a).output = "" ∧ (check t a).files = t) ∧
      (¬ Fails t a → ∃ model t', Audits t a model t' ∧
        ((check t a).exitCode = 1 ↔ OriginUsed t a t') ∧
        ((check t a).exitCode = 0 ↔ ¬ OriginUsed t a t')) ∧
      (∀ root dirs t', IsRoot t a root →
        t.readText (root.child "trexlint.json") = .ok (Settings.scanText dirs) →
          (OriginUsed t a t' ↔ OriginUse.Occurs t' root dirs)) ∧
      ∀ json verbose report,
        (check t { a with json, verbose, report }).exitCode = (check t a).exitCode := by
  have hcases : ∀ {model t'}, Audits t a model t' →
      ((check t a).exitCode = 0 ∧ ¬ OriginUsed t a t') ∨
        ((check t a).exitCode = 1 ∧ OriginUsed t a t') :=
    fun h => exitCode_cases h (h.wellFormed hw hn)
  refine ⟨⟨fun htwo => ?_, fun h => (check_of_fails h).1⟩, fun h => (check_of_fails h).2,
    fun hnot => ?_, fun root dirs t' => originUsed_of_scanText, exitCode_shown t a⟩
  · refine (fails_or_audits t a).resolve_right fun ⟨model, t', h⟩ => ?_
    rcases hcases h with ⟨hcode, -⟩ | ⟨hcode, -⟩ <;> omega
  · obtain ⟨model, t', h⟩ := (fails_or_audits t a).resolve_left hnot
    refine ⟨model, t', h, ?_⟩
    rcases hcases h with ⟨hcode, hnone⟩ | ⟨hcode, hoccurs⟩
    · simp [hcode, hnone]
    · simp [hcode, hoccurs]

/-- Sources that use the origin, and a snapshot beside them. -/
def kept : FileTree where
  root := .directory [("contracts", .directory OriginUse.contracts),
    ("model.json", .file (Text.toBytes Snapshot.guarded.print.toList))]
  workingDirectory := ["contracts"]

/-- The report cannot be written, since there is no directory for it. -/
def keptArguments : Arguments where
  root := some ".."
  model := some "../model.json"
  report := some "reports/audit.md"

theorem kept_wellFormed : kept.root.WellFormed := by
  have hat : OriginUse.project.root.at? ["contracts"] = some (.directory OriginUse.contracts) := rfl
  have hcontracts := (OriginUse.project_wellFormed.at? hat).2
  refine .directory (by decide) (by decide) ?_
  simp only [List.forall_mem_cons, List.not_mem_nil, false_imp_iff, implies_true, and_true]
  exact ⟨hcontracts, .file _⟩

theorem whereabouts_kept :
    kept.whereabouts? ⟨"../model.json"⟩ = some ["model.json"] ∧
      kept.whereabouts? ⟨"../contracts"⟩ = some ["contracts"] ∧
      kept.whereabouts? ⟨"../contracts/a/x.sol"⟩ = some ["contracts", "a", "x.sol"] := by
  decide +kernel

theorem loads_kept : Loads kept keptArguments (.ok Snapshot.guarded) := by
  have hfile : kept.stat ⟨"../model.json"⟩ =
      .ok (.file (Text.toBytes Snapshot.guarded.print.toList)) :=
    FileTree.stat_of_whereabouts? whereabouts_kept.1 rfl
  have htext : kept.readText ⟨"../model.json"⟩ = .ok Snapshot.guarded.print.toList := by
    refine bind_eq_ok.mpr ⟨_, FileTree.read_eq_ok_iff.mpr hfile, ?_⟩
    rw [Text.ofBytes?_toBytes]
    rfl
  exact .snapshot rfl htext (Snapshot.read_print _)

theorem settings_kept : Settings.At kept ⟨".."⟩ {} := by
  have hplain : FileTree.Plain "trexlint.json" := ⟨by decide, by decide, by decide⟩
  have hpath : Path.child ⟨".."⟩ "trexlint.json" = ⟨"../trexlint.json"⟩ := by decide
  have hl : kept.locate ⟨"../trexlint.json"⟩ = .ok ⟨["trexlint.json"], false⟩ := by
    refine FileTree.locate_eq_ok_iff.mpr ⟨⟨by decide, by decide, by decide⟩, ?_⟩
    have hparts : (Path.parts "../trexlint.json".toList).map String.ofList =
        ["..", "trexlint.json"] := by decide
    have hstart : (if (⟨"../trexlint.json"⟩ : Path).isAbsolute then [] else kept.workingDirectory) =
        ["contracts"] := by decide
    rw [hparts, hstart, FileTree.follow_parent]
    exact FileTree.follow_none_last hplain rfl
  rw [← hpath] at hl
  exact Settings.at_of_missing hl

theorem originUsed_kept : OriginUsed kept keptArguments kept := by
  obtain ⟨-, hdirectory, hfile⟩ := whereabouts_kept
  have hjoin : Path.join ⟨".."⟩ ⟨"contracts"⟩ = ⟨"../contracts"⟩ := by decide
  have hbase : kept.stat ⟨"../contracts"⟩ = .ok (.directory OriginUse.contracts) :=
    FileTree.stat_of_whereabouts? hdirectory rfl
  have hbelow : kept.stat ⟨"../contracts/a/x.sol"⟩ = .ok (.file OriginUse.forbiddenBytes) :=
    FileTree.stat_of_whereabouts? hfile rfl
  have huses : OriginUse.UsesOrigin kept ⟨"../contracts"⟩ ["a", "x.sol"]
      OriginUse.forbiddenBytes :=
    ⟨⟨_, hbase, rfl⟩, ⟨["a"], ['x'], by simp, by decide⟩,
      ⟨_, FileTree.read_eq_ok_iff.mpr hbelow⟩, List.infix_refl _⟩
  refine ⟨⟨".."⟩, {}, .given rfl, settings_kept, "contracts", by decide, ?_⟩
  rw [hjoin]
  exact ⟨OriginUse.isDirectory_iff.mpr ⟨_, hbase⟩, _, _, huses⟩

/-- The settings file names a scan root that is none of the standard ones. -/
def configured : FileTree where
  root := .directory
    [("trexlint.json", .file (Text.toBytes (Settings.scanText ["src"]))),
      ("src", .directory [("A.sol", .file OriginUse.forbiddenBytes)])]

theorem configured_wellFormed : configured.root.WellFormed := by
  refine .directory (by decide) (by decide) ?_
  simp only [List.forall_mem_cons, List.not_mem_nil, false_imp_iff, implies_true, and_true]
  refine ⟨.file _, .directory (by decide) (by decide) ?_⟩
  rw [List.forall_mem_singleton]
  exact .file _

theorem whereabouts_configured :
    configured.whereabouts? ⟨"/trexlint.json"⟩ = some ["trexlint.json"] ∧
      configured.whereabouts? ⟨"/src"⟩ = some ["src"] ∧
      configured.whereabouts? ⟨"/src/A.sol"⟩ = some ["src", "A.sol"] := by
  decide +kernel

theorem readText_configured :
    configured.readText (Path.child ⟨"/"⟩ "trexlint.json") = .ok (Settings.scanText ["src"]) := by
  have hpath : Path.child ⟨"/"⟩ "trexlint.json" = ⟨"/trexlint.json"⟩ := by decide
  have hfile := FileTree.stat_of_whereabouts? whereabouts_configured.1 rfl
  rw [hpath]
  refine bind_eq_ok.mpr ⟨_, FileTree.read_eq_ok_iff.mpr hfile, ?_⟩
  rw [Text.ofBytes?_toBytes]
  rfl

theorem occurs_configured : OriginUse.Occurs configured ⟨"/"⟩ ["src"] := by
  obtain ⟨-, hdirectory, hfile⟩ := whereabouts_configured
  have hjoin : Path.join ⟨"/"⟩ ⟨"src"⟩ = ⟨"/src"⟩ := by decide
  have hbase := FileTree.stat_of_whereabouts? hdirectory rfl
  have huses : OriginUse.UsesOrigin configured ⟨"/src"⟩ ["A.sol"] OriginUse.forbiddenBytes :=
    ⟨⟨_, hbase, rfl⟩, ⟨[], ['A'], by simp, by decide⟩,
      ⟨_, FileTree.read_eq_ok_iff.mpr (FileTree.stat_of_whereabouts? hfile rfl)⟩,
      List.infix_refl _⟩
  refine ⟨"src", List.mem_cons_self, ?_⟩
  rw [hjoin]
  exact ⟨OriginUse.isDirectory_iff.mpr ⟨_, hbase⟩, _, _, huses⟩

theorem exitCode_check_kept :
    kept.root.WellFormed ∧ (∀ n ∈ kept.workingDirectory, IsName n) ∧
      (check kept keptArguments).exitCode = 1 ∧
      (check kept { keptArguments with model := some "../contracts" }).exitCode = 2 ∧
      configured.readText (Path.child ⟨"/"⟩ "trexlint.json") = .ok (Settings.scanText ["src"]) ∧
      OriginUsed configured { root := some "/" } configured := by
  have hnames : ∀ n ∈ kept.workingDirectory, IsName n := by decide
  refine ⟨kept_wellFormed, hnames, ?_, ?_, readText_configured, ?_⟩
  · have hnot : ¬ Fails kept keptArguments := by
      intro h
      cases h with
      | unloaded hl => cases (loads_iff.mp hl).trans (loads_iff.mp loads_kept).symm
      | unsaved _ hx _ => cases hx
    obtain ⟨-, -, hcode, -⟩ := exitCode_check kept_wellFormed hnames keptArguments
    obtain ⟨model, t', haudits, hone, -⟩ := hcode hnot
    cases haudits with
    | plain => exact hone.mpr originUsed_kept
    | exported _ hx _ => cases hx
  · have hbase : kept.stat ⟨"../contracts"⟩ = .ok (.directory OriginUse.contracts) :=
      FileTree.stat_of_whereabouts? whereabouts_kept.2.1 rfl
    have hread : kept.readText ⟨"../contracts"⟩ = .error .isDirectory := by
      unfold FileTree.readText FileTree.read
      rw [hbase]
      rfl
    obtain ⟨htwo, -⟩ := exitCode_check kept_wellFormed hnames
      { keptArguments with model := some "../contracts" }
    exact htwo.mpr (.unloaded (.unreadable rfl hread))
  · obtain ⟨-, -, -, hnamed, -⟩ := exitCode_check configured_wellFormed (by decide)
      { root := some "/" }
    exact (hnamed ⟨"/"⟩ ["src"] configured (.given rfl) readText_configured).mpr occurs_configured

end Check

end TokenAudit
