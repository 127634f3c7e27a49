import Mathlib.Data.List.Flatten
import TokenAudit.Proofs.Rule.Audit
import TokenAudit.Proofs.Rule.NamePattern

/-! Patterns for admin functions that are added to the tables. They add to the warnings of a run and
take none away. -/

namespace TokenAudit

namespace AdminTables

variable {e e' : List (String × List String)} {t t' : AdminTables} {contract function : String}

/-- The patterns that `e` adds for a contract. -/
def added (e : List (String × List String)) (contract : String) : List String :=
  (e.lookup contract).getD []

/-- For every contract `e'` adds all that `e` adds, in the same order, and possibly more. -/
def AddsMore (e e' : List (String × List String)) : Prop :=
  ∀ contract, (added e contract).Sublist (added e' contract)

/-- The tables without the patterns that cannot be used. -/
def keeping (usable : String → Bool) (e : List (String × List String)) :
    List (String × List String) :=
  e.map fun (contract, patterns) => (contract, patterns.filter usable)

theorem addsMore_nil (e : List (String × List String)) : AddsMore [] e :=
  fun contract => List.nil_sublist (added e contract)

theorem added_keeping (usable : String → Bool) (e : List (String × List String))
    (contract : String) : added (keeping usable e) contract = (added e contract).filter usable := by
  unfold added keeping
  induction e with
  | nil => rfl
  | cons entry e ih =>
    obtain ⟨name, patterns⟩ := entry
    rw [List.map_cons, List.lookup_cons, List.lookup_cons]
    cases contract == name with
    | true => rfl
    | false => exact ih

theorem AddsMore.keeping (h : AddsMore e e') (usable : String → Bool) :
    AddsMore (keeping usable e) (keeping usable e') := by
  intro contract
  rw [added_keeping, added_keeping]
  exact (h contract).filter usable

theorem AddsMore.patterns (h : AddsMore e e') (contract : String) :
    ((⟨e⟩ : AdminTables).patterns contract).Sublist ((⟨e'⟩ : AdminTables).patterns contract) :=
  (h contract).append_left _

/-- A function is covered if it fills a pattern. -/
theorem covers_iff : t.covers contract function = true ↔
    ∃ p ∈ t.patterns contract, NamePattern.Fills p.toList function.toList := by
  simp only [covers, List.any_eq_true, NamePattern.isMatch, NamePattern.headD_row_iff_fills]

theorem covers_of_subset (h : t.patterns contract ⊆ t'.patterns contract)
    (hcovers : t.covers contract function = true) : t'.covers contract function = true := by
  obtain ⟨p, hp, hfills⟩ := covers_iff.mp hcovers
  exact covers_iff.mpr ⟨p, h hp, hfills⟩

end AdminTables

namespace AdminAccess

variable {e e' : List (String × List String)} {t : AdminTables} {contracts : List Contract}
variable {c : Contract} {m : Member} {i : Issue}

open AdminTables

/-- What makes an admin function suspect: it can be called from outside and shows no access control,
though its contract inherits it. -/
def Suspect (c : Contract) (m : Member) : Prop :=
  m.visibility.isEntryPoint = true ∧ isGuarded m = false ∧ inheritsGuards c = true

theorem isExposed_iff :
    isExposed t c m = true ↔ Suspect c m ∧ t.covers c.name m.name = true := by
  unfold isExposed Suspect
  cases m.visibility.isEntryPoint <;> cases isGuarded m <;> cases inheritsGuards c <;> simp

theorem mem_check_iff : i ∈ check t contracts ↔ ∃ c ∈ contracts, ∃ m ∈ c.members,
    i = .unguardedAdmin c.name m.name ∧ Suspect c m ∧
      ∃ p ∈ t.patterns c.name, NamePattern.Fills p.toList m.name.toList := by
  simp only [check, List.mem_flatMap, List.mem_map, List.mem_filter, isExposed_iff,
    AdminTables.covers_iff]
  constructor
  · intro h
    obtain ⟨c, hc, m, ⟨hm, hsuspect, hcovers⟩, hissue⟩ := h
    exact ⟨c, hc, m, hm, hissue.symm, hsuspect, hcovers⟩
  · intro h
    obtain ⟨c, hc, m, hm, hissue, hsuspect, hcovers⟩ := h
    exact ⟨c, hc, m, ⟨hm, hsuspect, hcovers⟩, hissue.symm⟩

theorem check_sublist (h : AddsMore e e') (contracts : List Contract) :
    (check ⟨e⟩ contracts).Sublist (check ⟨e'⟩ contracts) := by
  apply List.Sublist.flatMap_right
  intro c _
  apply List.Sublist.map
  apply List.monotone_filter_right
  intro m hm
  obtain ⟨hsuspect, hcovers⟩ := isExposed_iff.mp hm
  exact isExposed_iff.mpr ⟨hsuspect, covers_of_subset (h.patterns c.name).subset hcovers⟩

/-- What is found with more patterns and was not found before has a pattern among those added. -/
theorem mem_check_iff_of_addsMore (h : AddsMore e e') : i ∈ check ⟨e'⟩ contracts ↔
    i ∈ check ⟨e⟩ contracts ∨ ∃ c ∈ contracts, ∃ m ∈ c.members,
      i = .unguardedAdmin c.name m.name ∧ Suspect c m ∧
        ∃ p ∈ added e' c.name, NamePattern.Fills p.toList m.name.toList := by
  constructor
  · intro hi
    obtain ⟨c, hc, m, hm, hissue, hsuspect, p, hp, hfills⟩ := mem_check_iff.mp hi
    rcases List.mem_append.mp hp with hbuiltin | hadded
    · have hpatterns : p ∈ (⟨e⟩ : AdminTables).patterns c.name := List.mem_append_left _ hbuiltin
      exact Or.inl (mem_check_iff.mpr ⟨c, hc, m, hm, hissue, hsuspect, p, hpatterns, hfills⟩)
    · exact Or.inr ⟨c, hc, m, hm, hissue, hsuspect, p, hadded, hfills⟩
  · intro hi
    rcases hi with hi | ⟨c, hc, m, hm, hissue, hsuspect, p, hadded, hfills⟩
    · exact (check_sublist h contracts).subset hi
    · have hpatterns : p ∈ (⟨e'⟩ : AdminTables).patterns c.name := List.mem_append_right _ hadded
      exact mem_check_iff.mpr ⟨c, hc, m, hm, hissue, hsuspect, p, hpatterns, hfills⟩

end AdminAccess

namespace Audit

open AdminTables AdminAccess

variable {e e' : List (String × List String)}

/-- One report has all that another has, in the same order, and the same failures. -/
structure ReportsMore (a a' : Audit) : Prop where
  findings : a.findings.Sublist a'.findings
  failures : a.report.failures = a'.report.failures
  warnings : a.report.warnings.Sublist a'.report.warnings
  notes : a.report.notes.Sublist a'.report.notes
  passed : a.report.passed = a'.report.passed

theorem reportsMore_of_addsMore (h : AdminTables.AddsMore e e') (t : FileTree) (root : Path)
    (s : Settings) (contracts : List Contract) :
    ReportsMore (run t root { s with adminPatterns := e } contracts)
      (run t root { s with adminPatterns := e' } contracts) := by
  have hissues : (issues t root { s with adminPatterns := e } contracts).Sublist
      (issues t root { s with adminPatterns := e' } contracts) :=
    (((AdminAccess.check_sublist h contracts).append_right _).append_right _).append_right _
  have hshown : (ledger t root { s with adminPatterns := e } contracts).shown.Sublist
      (ledger t root { s with adminPatterns := e' } contracts).shown := by
    rw [shown_ledger, shown_ledger]
    exact hissues.map _
  have hfailures (e : List (String × List String)) :
      (run t root { s with adminPatterns := e } contracts).report.failures =
        failuresOf ((OriginUse.check t root s.scanDirectories).map Issue.finding) := by
    have hreport : (run t root { s with adminPatterns := e } contracts).report.failures = _ :=
      failures_reportOn balanced_ledger
    rw [hreport, shown_ledger, failuresOf_issues]
  have hwarnings (e : List (String × List String)) :
      (run t root { s with adminPatterns := e } contracts).report.warnings = _ :=
    warnings_reportOn balanced_ledger
  have hnotes (e : List (String × List String)) :
      (run t root { s with adminPatterns := e } contracts).report.notes = _ :=
    notes_reportOn balanced_ledger
  constructor
  case findings => exact hshown
  case failures => rw [hfailures, hfailures]
  case warnings =>
    rw [hwarnings, hwarnings]
    exact hshown.filter _
  case notes =>
    rw [hnotes, hnotes]
    exact (hshown.filter _).map _
  case passed =>
    have hpassed (e : List (String × List String)) :
        (run t root { s with adminPatterns := e } contracts).report.passed =
          (run t root { s with adminPatterns := e } contracts).report.failures.isEmpty := rfl
    rw [hpassed, hpassed, hfailures, hfailures]

/-- More patterns for admin functions leave every warning where it was, those of the built-in tables
included, also if patterns that cannot be used are left out. What is new has one of the patterns,
and in the report on a run nothing is lost either. -/
theorem warnings_with_more_patterns (h : AddsMore e e') (contracts : List Contract) :
    ((check ⟨e⟩ contracts).map Issue.finding).Sublist ((check ⟨e'⟩ contracts).map Issue.finding) ∧
      ((check ⟨[]⟩ contracts).map Issue.finding).Sublist
        ((check ⟨e⟩ contracts).map Issue.finding) ∧
      (∀ usable, ((check ⟨keeping usable e⟩ contracts).map Issue.finding).Sublist
        ((check ⟨keeping usable e'⟩ contracts).map Issue.finding)) ∧
      (∀ i, i ∈ check ⟨e'⟩ contracts ↔
        i ∈ check ⟨e⟩ contracts ∨ ∃ c ∈ contracts, ∃ m ∈ c.members,
          i = .unguardedAdmin c.name m.name ∧ Suspect c m ∧
            ∃ p ∈ added e' c.name, NamePattern.Fills p.toList m.name.toList) ∧
      ∀ t root (s : Settings), ReportsMore (run t root { s with adminPatterns := e } contracts)
        (run t root { s with adminPatterns := e' } contracts) := by
  refine ⟨(check_sublist h contracts).map _, (check_sublist (addsMore_nil e) contracts).map _,
    fun usable => (check_sublist (h.keeping usable) contracts).map _,
    fun i => mem_check_iff_of_addsMore h, fun t root s => ?_⟩
  exact reportsMore_of_addsMore h t root s contracts

/-- A pattern for one contract. -/
def pausing : List (String × List String) := [("Token", ["pause"])]

/-- Another pattern in front of it, and one for a contract that has a table. -/
def pausingAndBatches : List (String × List String) :=
  [("IdentityRegistry", ["batch*"]), ("Token", ["set*", "pause"])]

def ownedRegistries : List Contract :=
  [{ name := "Token", kind := .contract, file := "Token.sol", inheritance := ["Ownable"],
     members := [{ name := "setName", kind := .function, visibility := .external },
                 { name := "pause", kind := .function, visibility := .external }] },
    { name := "IdentityRegistry", kind := .contract, file := "Registry.sol",
      inheritance := ["Ownable"],
      members := [{ name := "batchRegister", kind := .function, visibility := .external },
                  { name := "addAgent", kind := .function, visibility := .external }] }]

theorem warnings_with_more_patterns_registries :
    AddsMore pausing pausingAndBatches ∧
      check ⟨[]⟩ ownedRegistries = [.unguardedAdmin "IdentityRegistry" "addAgent"] ∧
      check ⟨pausing⟩ ownedRegistries =
        [.unguardedAdmin "Token" "pause", .unguardedAdmin "IdentityRegistry" "addAgent"] ∧
      (check ⟨pausingAndBatches⟩ ownedRegistries).length = 4 ∧
      ((check ⟨pausing⟩ ownedRegistries).map Issue.finding).Sublist
        ((check ⟨pausingAndBatches⟩ ownedRegistries).map Issue.finding) := by
  have hmore : AddsMore pausing pausingAndBatches := by
    intro contract
    by_cases hcontract : contract = "Token"
    · subst hcontract
      decide
    · have hother : (contract == "Token") = false := beq_eq_false_iff_ne.mpr hcontract
      have hnone : added pausing contract = [] := by
        rw [added, pausing, List.lookup_cons, hother]
        rfl
      rw [hnone]
      exact List.nil_sublist _
  have hbuiltin : check ⟨[]⟩ ownedRegistries =
      [.unguardedAdmin "IdentityRegistry" "addAgent"] := by decide +kernel
  have hpausing : check ⟨pausing⟩ ownedRegistries =
      [.unguardedAdmin "Token" "pause", .unguardedAdmin "IdentityRegistry" "addAgent"] := by
    decide +kernel
  have hlength : (check ⟨pausingAndBatches⟩ ownedRegistries).length = 4 := by decide +kernel
  obtain ⟨hsublist, -⟩ := warnings_with_more_patterns hmore ownedRegistries
  exact ⟨hmore, hbuiltin, hpausing, hlength, hsublist⟩

end Audit

end TokenAudit
