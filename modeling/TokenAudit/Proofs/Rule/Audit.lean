import Mathlib.Data.List.Basic
import TokenAudit.Rule.Audit

/-! A run loses no finding: what the rules find is shown in their order, and the report has it all
as failures, warnings and notes. -/

namespace TokenAudit

/-- The place of a rule in a run. -/
def Rule.place (r : Rule) : Nat := Rule.all.idxOf r

namespace Issue

theorem severity_finding (i : Issue) : i.finding.severity = i.severity := rfl

theorem severity_eq (i : Issue) : i.severity = .fail ∧ i.rule = .originUse ∨
    i.severity = .warn ∧ i.rule ≠ .originUse := by
  cases i <;> simp [severity, rule]

end Issue

namespace Ledger

variable {l : Ledger}

/-- What is kept apart is what has been shown. -/
structure Balanced (l : Ledger) : Prop where
  severity : ∀ f ∈ l.shown, f.severity = .fail ∨ f.severity = .warn
  failures : l.failures = failuresOf l.shown
  warnings : l.warnings = warningsOf l.shown

theorem record_cases (l : Ledger) (i : Issue) :
    i.finding.severity = .fail ∧
        l.record i = ⟨l.shown ++ [i.finding], l.failures ++ [i.finding], l.warnings⟩ ∨
      i.finding.severity = .warn ∧
        l.record i = ⟨l.shown ++ [i.finding], l.failures, l.warnings ++ [i.finding]⟩ := by
  rcases i.severity_eq with ⟨hs, -⟩ | ⟨hs, -⟩
  · have hf : i.finding = ⟨i.finding.rule, .fail, i.finding.message⟩ := by rw [← hs]; rfl
    exact Or.inl ⟨i.severity_finding.trans hs, by rw [record, hf]; rfl⟩
  · have hf : i.finding = ⟨i.finding.rule, .warn, i.finding.message⟩ := by rw [← hs]; rfl
    exact Or.inr ⟨i.severity_finding.trans hs, by rw [record, hf]; rfl⟩

theorem shown_record (l : Ledger) (i : Issue) : (l.record i).shown = l.shown ++ [i.finding] := by
  rcases l.record_cases i with ⟨-, hr⟩ | ⟨-, hr⟩ <;> rw [hr]

theorem Balanced.record (hl : l.Balanced) (i : Issue) : (l.record i).Balanced := by
  have hnew (f : Finding) (hf : f ∈ l.shown ++ [i.finding]) : f ∈ l.shown ∨ f = i.finding := by
    simpa using hf
  rcases l.record_cases i with ⟨hs, hr⟩ | ⟨hs, hr⟩ <;> rw [hr]
  · refine ⟨fun f hf => ?_, ?_, ?_⟩
    · rcases hnew f hf with hf | rfl
      · exact hl.severity f hf
      · exact Or.inl hs
    · simp [failuresOf, hs, hl.failures]
    · simp [warningsOf, hs, hl.warnings]
  · refine ⟨fun f hf => ?_, ?_, ?_⟩
    · rcases hnew f hf with hf | rfl
      · exact hl.severity f hf
      · exact Or.inr hs
    · simp [failuresOf, hs, hl.failures]
    · simp [warningsOf, hs, hl.warnings]

theorem Balanced.recordAll (hl : l.Balanced) (is : List Issue) : (l.recordAll is).Balanced := by
  induction is generalizing l with
  | nil => exact hl
  | cons i is ih => exact ih (hl.record i)

theorem balanced_empty : Balanced {} := ⟨by simp, rfl, rfl⟩

theorem shown_recordAll (l : Ledger) (is : List Issue) :
    (l.recordAll is).shown = l.shown ++ is.map Issue.finding := by
  induction is generalizing l with
  | nil => simp [recordAll]
  | cons i is ih =>
    have hrest := ih (l.record i)
    rw [shown_record] at hrest
    simpa [recordAll] using hrest

end Ledger

namespace Audit

variable {t : FileTree} {root : Path} {s : Settings} {contracts : List Contract} {i : Issue}

/-- What the rules find, one rule after another. -/
def issues (t : FileTree) (root : Path) (s : Settings) (contracts : List Contract) : List Issue :=
  AdminAccess.check ⟨s.adminPatterns⟩ contracts ++ TransferApproval.check contracts ++
    OriginUse.check t root s.scanDirectories ++ OwnerSetup.check contracts

theorem balanced_ledger : (ledger t root s contracts).Balanced :=
  (((Ledger.balanced_empty.recordAll _).recordAll _).recordAll _).recordAll _

theorem shown_ledger :
    (ledger t root s contracts).shown = (issues t root s contracts).map Issue.finding := by
  simp [ledger, Ledger.shown_recordAll, issues]

theorem rule_of_mem_adminAccess {tables : AdminTables}
    (hi : i ∈ AdminAccess.check tables contracts) : i.rule = .adminAccess := by
  simp only [AdminAccess.check, List.mem_flatMap, List.mem_map] at hi
  obtain ⟨c, -, m, -, rfl⟩ := hi
  rfl

theorem rule_of_mem_transferApproval (hi : i ∈ TransferApproval.check contracts) :
    i.rule = .transferApproval := by
  dsimp only [TransferApproval.check] at hi
  split_ifs at hi
  · rw [List.mem_singleton.mp hi]
    rfl
  · obtain ⟨⟨c, k⟩, -, hk⟩ := List.mem_filterMap.mp hi
    dsimp only [TransferApproval.issue?] at hk
    split_ifs at hk <;> rw [← Option.some.inj hk] <;> rfl

theorem rule_of_mem_originUse {dirs : List String} (hi : i ∈ OriginUse.check t root dirs) :
    i.rule = .originUse := by
  unfold OriginUse.check at hi
  split at hi
  · cases hi
  · rw [List.mem_singleton.mp hi]
    rfl

theorem length_originUse_le (t : FileTree) (root : Path) (dirs : List String) :
    (OriginUse.check t root dirs).length ≤ 1 := by
  unfold OriginUse.check
  split <;> simp

theorem rule_of_mem_ownerSetup (hi : i ∈ OwnerSetup.check contracts) : i.rule = .ownerSetup := by
  simp only [OwnerSetup.check, List.mem_map] at hi
  obtain ⟨c, -, rfl⟩ := hi
  rfl

/-- Issues of one rule stand in every order of rules. -/
theorem pairwise_place {is : List Issue} {r : Rule} (hr : ∀ i ∈ is, i.rule = r) :
    is.Pairwise fun i j => i.rule.place ≤ j.rule.place :=
  List.pairwise_iff_forall_sublist.mpr fun {i j} h => by
    have hi : i.rule = r := hr i (h.subset (by simp))
    have hj : j.rule = r := hr j (h.subset (by simp))
    exact Nat.le_of_eq (by rw [hi, hj])

theorem pairwise_issues :
    (issues t root s contracts).Pairwise fun i j => i.rule.place ≤ j.rule.place := by
  unfold issues
  rw [List.pairwise_append, List.pairwise_append, List.pairwise_append]
  refine ⟨⟨⟨pairwise_place fun i => rule_of_mem_adminAccess,
    pairwise_place fun i => rule_of_mem_transferApproval, fun i hi j hj => ?_⟩,
    pairwise_place fun i => rule_of_mem_originUse, fun i hi j hj => ?_⟩,
    pairwise_place fun i => rule_of_mem_ownerSetup, fun i hi j hj => ?_⟩
  · rw [rule_of_mem_adminAccess hi, rule_of_mem_transferApproval hj]
    decide
  · rw [rule_of_mem_originUse hj]
    rcases List.mem_append.mp hi with hi | hi
    · rw [rule_of_mem_adminAccess hi]
      decide
    · rw [rule_of_mem_transferApproval hi]
      decide
  · rw [rule_of_mem_ownerSetup hj]
    cases i.rule <;> decide

/-- What one of the rules finds. -/
def issuesBy (t : FileTree) (root : Path) (s : Settings) (contracts : List Contract) :
    Rule → List Issue
  | .adminAccess => AdminAccess.check ⟨s.adminPatterns⟩ contracts
  | .transferApproval => TransferApproval.check contracts
  | .originUse => OriginUse.check t root s.scanDirectories
  | .ownerSetup => OwnerSetup.check contracts

theorem rule_of_mem_issuesBy {r : Rule} (hi : i ∈ issuesBy t root s contracts r) : i.rule = r := by
  cases r with
  | adminAccess => exact rule_of_mem_adminAccess hi
  | transferApproval => exact rule_of_mem_transferApproval hi
  | originUse => exact rule_of_mem_originUse hi
  | ownerSetup => exact rule_of_mem_ownerSetup hi

theorem filter_issues (r : Rule) :
    (issues t root s contracts).filter (·.rule = r) = issuesBy t root s contracts r := by
  have hblock : ∀ r', (issuesBy t root s contracts r').filter (·.rule = r) =
      if r' = r then issuesBy t root s contracts r' else [] := by
    intro r'
    split_ifs with hr
    · refine List.filter_eq_self.mpr fun i hi => ?_
      simpa [← hr] using rule_of_mem_issuesBy hi
    · refine List.filter_eq_nil_iff.mpr fun i hi => ?_
      simpa [rule_of_mem_issuesBy hi] using hr
  have hissues : issues t root s contracts = Rule.all.flatMap (issuesBy t root s contracts) := by
    simp [issues, issuesBy, Rule.all]
  rw [hissues, List.filter_flatMap]
  simp only [hblock, Rule.all]
  cases r <;> simp

/-- The warnings of a run by one rule are those of what this rule finds. -/
theorem warningsOf_findings_filter (r : Rule) :
    (warningsOf (run t root s contracts).findings).filter (·.rule = r) =
      warningsOf ((issuesBy t root s contracts r).map Issue.finding) := by
  have hfindings : (run t root s contracts).findings =
      (issues t root s contracts).map Issue.finding := shown_ledger
  rw [hfindings, ← filter_issues, warningsOf, warningsOf, List.filter_filter, List.filter_map,
    List.filter_map, List.filter_filter]
  refine congrArg _ (List.filter_congr fun i _ => ?_)
  exact Bool.and_comm _ _

theorem failuresOf_map_finding_eq_nil {is : List Issue} (his : ∀ i ∈ is, i.rule ≠ .originUse) :
    failuresOf (is.map Issue.finding) = [] := by
  simp only [failuresOf, List.filter_eq_nil_iff, List.mem_map]
  rintro _ ⟨i, hi, rfl⟩
  rcases i.severity_eq with ⟨-, hr⟩ | ⟨hs, -⟩
  · exact absurd hr (his i hi)
  · simp [i.severity_finding, hs]

/-- Only the scan for the origin of a transaction fails a run. -/
theorem failuresOf_issues :
    failuresOf ((issues t root s contracts).map Issue.finding) =
      failuresOf ((OriginUse.check t root s.scanDirectories).map Issue.finding) := by
  have hadmin : failuresOf ((AdminAccess.check ⟨s.adminPatterns⟩ contracts).map _) = [] :=
    failuresOf_map_finding_eq_nil fun i hi => by
      rw [rule_of_mem_adminAccess hi]
      decide
  have htransfer : failuresOf ((TransferApproval.check contracts).map _) = [] :=
    failuresOf_map_finding_eq_nil fun i hi => by
      rw [rule_of_mem_transferApproval hi]
      decide
  have howner : failuresOf ((OwnerSetup.check contracts).map _) = [] :=
    failuresOf_map_finding_eq_nil fun i hi => by
      rw [rule_of_mem_ownerSetup hi]
      decide
  unfold failuresOf at hadmin htransfer howner ⊢
  simp only [issues, List.map_append, List.filter_append, hadmin, htransfer, howner,
    List.nil_append, List.append_nil]

theorem length_failuresOf_issues_le :
    (failuresOf ((issues t root s contracts).map Issue.finding)).length ≤ 1 := by
  rw [failuresOf_issues]
  calc (failuresOf ((OriginUse.check t root s.scanDirectories).map Issue.finding)).length
      ≤ ((OriginUse.check t root s.scanDirectories).map Issue.finding).length :=
        List.length_filter_le _ _
    _ = (OriginUse.check t root s.scanDirectories).length := List.length_map _
    _ ≤ 1 := length_originUse_le t root s.scanDirectories

/-- How the findings of a run and the report on them belong together, when `known` tells the
messages of warnings that are known. -/
structure Conserves (known : String → Bool) (findings : List Finding) (r : Report) : Prop where
  ordered : findings.Pairwise fun f g => f.rule.place ≤ g.rule.place
  severity : ∀ f ∈ findings, f.severity = .fail ∨ f.severity = .warn
  fail_rule : ∀ f ∈ findings, f.severity = .fail → f.rule = .originUse
  fail_once : (findings.filter (·.severity = .fail)).length ≤ 1
  failures : r.failures = findings.filter (·.severity = .fail)
  warnings : r.warnings = findings.filter fun f => f.severity = .warn ∧ ¬ known f.message
  notes : r.notes = (findings.filter fun f => f.severity = .warn ∧ known f.message).map
    fun f => { f with severity := .info }
  complete : findings.Perm
    (r.failures ++ r.warnings ++ r.notes.map fun f => { f with severity := .warn })
  passed : r.passed = true ↔ ∀ f ∈ findings, f.severity ≠ .fail

/-- Failures, warnings that are not known and known ones are all that was shown. -/
theorem perm_split (known : String → Bool) {findings : List Finding}
    (hs : ∀ f ∈ findings, f.severity = .fail ∨ f.severity = .warn) :
    findings.Perm
      (findings.filter (·.severity = .fail) ++
        findings.filter (fun f => f.severity = .warn ∧ ¬ known f.message) ++
          findings.filter fun f => f.severity = .warn ∧ known f.message) := by
  induction findings with
  | nil => exact List.Perm.refl _
  | cons f fs ih =>
    have hrest := (ih fun g hg => hs g (List.mem_cons_of_mem _ hg)).cons f
    rcases hs f List.mem_cons_self with hf | hf
    · simpa [hf] using hrest
    · by_cases hk : known f.message = true
      · simpa [hf, hk] using hrest.trans List.perm_middle.symm
      · rw [List.append_assoc] at hrest
        simpa [hf, hk] using hrest.trans List.perm_middle.symm

theorem split_warningsOf (l : AllowList) (fs : List Finding) :
    l.split (warningsOf fs) =
      (fs.filter (fun f => f.severity = .warn ∧ ¬ l.covers f.message),
        (fs.filter fun f => f.severity = .warn ∧ l.covers f.message).map
          fun f => { f with severity := .info }) := by
  have hkept : (warningsOf fs).filter (!l.isNote ·) =
      fs.filter fun f => f.severity = .warn ∧ ¬ l.covers f.message := by
    rw [warningsOf, List.filter_filter]
    refine List.filter_congr fun f _ => ?_
    by_cases hf : f.severity = .warn <;> simp [AllowList.isNote, hf]
  have hnotes : (warningsOf fs).filter l.isNote =
      fs.filter fun f => f.severity = .warn ∧ l.covers f.message := by
    rw [warningsOf, List.filter_filter]
    refine List.filter_congr fun f _ => ?_
    by_cases hf : f.severity = .warn <;> simp [AllowList.isNote, hf]
  rw [AllowList.split, hkept, hnotes]

/-- Only their severity tells notes from the warnings that were shown. -/
theorem map_warn_notes (known : String → Bool) (fs : List Finding) :
    (((fs.filter fun f => f.severity = .warn ∧ known f.message).map
      fun f => { f with severity := .info }).map fun f => { f with severity := .warn }) =
        fs.filter fun f => f.severity = .warn ∧ known f.message := by
  rw [List.map_map]
  refine (List.map_congr_left fun f hf => ?_).trans (List.map_id _)
  have hwarn : f.severity = .warn := by
    have hkept := (List.mem_filter.mp hf).2
    simp only [decide_eq_true_eq] at hkept
    exact hkept.1
  rw [Function.comp_apply, id, ← hwarn]

section Report

variable {l : Ledger} (hl : l.Balanced)

include hl

theorem failures_reportOn : (reportOn root s contracts l).failures = failuresOf l.shown :=
  hl.failures

theorem warnings_reportOn :
    (reportOn root s contracts l).warnings = l.shown.filter fun f =>
      f.severity = .warn ∧ ¬ (AllowList.ofSettings s.allow).covers f.message := by
  have hsplit := split_warningsOf (AllowList.ofSettings s.allow) l.shown
  rw [← hl.warnings] at hsplit
  exact congrArg Prod.fst hsplit

theorem notes_reportOn :
    (reportOn root s contracts l).notes = (l.shown.filter fun f =>
      f.severity = .warn ∧ (AllowList.ofSettings s.allow).covers f.message).map
        fun f => { f with severity := .info } := by
  have hsplit := split_warningsOf (AllowList.ofSettings s.allow) l.shown
  rw [← hl.warnings] at hsplit
  exact congrArg Prod.snd hsplit

end Report

/-- A report on what is kept apart conserves what has been shown. -/
theorem conserves_reportOn {l : Ledger} (hl : l.Balanced)
    (ordered : l.shown.Pairwise fun f g => f.rule.place ≤ g.rule.place)
    (fail_rule : ∀ f ∈ l.shown, f.severity = .fail → f.rule = .originUse)
    (fail_once : (failuresOf l.shown).length ≤ 1) :
    Conserves (AllowList.ofSettings s.allow).covers l.shown (reportOn root s contracts l) := by
  have hfailures : (reportOn root s contracts l).failures = _ := failures_reportOn hl
  have hwarnings : (reportOn root s contracts l).warnings = _ := warnings_reportOn hl
  have hnotes : (reportOn root s contracts l).notes = _ := notes_reportOn hl
  refine ⟨ordered, hl.severity, fail_rule, fail_once, hfailures, hwarnings, hnotes, ?_, ?_⟩
  · rw [hwarnings, hnotes, hfailures, map_warn_notes]
    exact perm_split _ hl.severity
  · have hpassed : (reportOn root s contracts l).passed = l.failures.isEmpty := rfl
    rw [hpassed, hl.failures, List.isEmpty_iff, failuresOf, List.filter_eq_nil_iff]
    simp only [decide_eq_true_eq, ne_eq]

/-- The findings of a run are what its rules find, in their order, and its report conserves them. -/
theorem run_conserves (t : FileTree) (root : Path) (s : Settings) (contracts : List Contract) :
    (run t root s contracts).findings = (issues t root s contracts).map Issue.finding ∧
      Conserves (AllowList.ofSettings s.allow).covers (run t root s contracts).findings
        (run t root s contracts).report := by
  have hshown : (ledger t root s contracts).shown = (issues t root s contracts).map Issue.finding :=
    shown_ledger
  refine ⟨hshown, conserves_reportOn balanced_ledger ?_ ?_ ?_⟩
  · rw [hshown, List.pairwise_map]
    exact pairwise_issues
  · rw [hshown, List.forall_mem_map]
    intro i _ hi
    rcases i.severity_eq with ⟨-, hr⟩ | ⟨hs, -⟩
    · exact hr
    · cases hi.symm.trans hs
  · rw [hshown]
    exact length_failuresOf_issues_le

end Audit

end TokenAudit
