import TokenAudit.Proofs.Lists
import TokenAudit.Proofs.Rule.Audit
import TokenAudit.Proofs.Rule.NamePattern
import TokenAudit.Proofs.Text.Search

/-! Which warnings are known by default: two of all that can be found, as no other message starts
as theirs do. -/

namespace TokenAudit

/-- The issues that have been looked at and found harmless. -/
def Issue.audited : List Issue :=
  [.unguardedAdmin "IdentityRegistryStorage" "bindIdentityRegistry",
    .noInitializer "AgentRoleUpgradeable"]

namespace AdminTables

/-- All contracts and functions that the built-in tables name. -/
def builtinPairs : List (String × String) :=
  builtin.flatMap fun (contract, names) => names.map fun n => (contract, n)

theorem mem_builtinPairs_of_covers {contract function : String}
    (h : (⟨[]⟩ : AdminTables).covers contract function = true) :
    (contract, function) ∈ builtinPairs := by
  have hliteral : ∀ entry ∈ builtin, ∀ p ∈ entry.2, '*' ∉ p.toList := by decide
  obtain ⟨p, hp, hmatch⟩ := List.any_eq_true.mp h
  cases hnames : builtin.lookup contract with
  | none => simp [patterns, hnames] at hp
  | some names =>
    have hmem : p ∈ names := by simpa [patterns, hnames] using hp
    have hentry : (contract, names) ∈ builtin := mem_of_lookup hnames
    obtain rfl := (NamePattern.isMatch_iff_of_no_star (hliteral _ hentry p hmem)).mp hmatch
    exact List.mem_flatMap.mpr ⟨_, hentry, List.mem_map.mpr ⟨p, hmem, rfl⟩⟩

end AdminTables

namespace AllowList

variable {message start contract : String} {i : Issue}

theorem key_start (message : String) : (key message).toList <+: message.toList := by
  unfold key
  split
  · next head after hcut =>
    rw [Text.eq_of_cut? hcut, String.toList_ofList, List.append_assoc]
    exact List.prefix_append _ _
  · exact List.prefix_rfl

theorem covers_iff {l : AllowList} :
    l.covers message = true ↔ ∃ start ∈ l.entries, start.toList <+: (key message).toList := by
  simp only [covers, List.any_eq_true, List.isPrefixOf_iff_prefix]

theorem exists_prefix_of_covers {l : AllowList} (h : l.covers message = true) :
    ∃ start ∈ l.entries, start.toList <+: message.toList := by
  obtain ⟨start, hstart, hkey⟩ := covers_iff.mp h
  exact ⟨start, hstart, hkey.trans (key_start message)⟩

theorem toList_message (i : Issue) :
    i.finding.message.toList = i.rule.code.toList ++ (": ".toList ++ i.text.toList) := by
  simp [Issue.finding]

theorem toList_text_unguardedAdmin (contract function : String) :
    (Issue.unguardedAdmin contract function).text.toList = contract.toList ++
      '.' :: (function.toList ++
        " — not directly proven, but contract inherits access-control base".toList) := by
  have htext : (Issue.unguardedAdmin contract function).text =
      contract ++ "." ++ function ++
        " — not directly proven, but contract inherits access-control base" := rfl
  rw [htext, String.toList_append, String.toList_append, String.toList_append]
  simp

theorem toList_text_noInitializer (contract : String) :
    (Issue.noInitializer contract).text.toList = contract.toList ++
      ' ' :: "inherits OwnableUpgradeable but no obvious initializer found".toList := by
  have htext : (Issue.noInitializer contract).text =
      contract ++ " inherits OwnableUpgradeable but no obvious initializer found" := rfl
  rw [htext, String.toList_append]
  simp

theorem prefix_message_iff {r : Rule} {start : List Char} :
    r.code.toList ++ (": ".toList ++ start) <+: i.finding.message.toList ↔
      i.rule = r ∧ start <+: i.text.toList := by
  rw [toList_message]
  cases hr : i.rule <;> cases r <;> simp [Rule.code]

/-- What the built-in list covers starts as the message of an audited issue of the same rule. -/
theorem prefix_of_covers_builtin (h : builtin.covers i.finding.message = true) :
    i.rule = .adminAccess ∧
        "IdentityRegistryStorage".toList ++ '.' :: "bindIdentityRegistry".toList <+:
          i.text.toList ∨
      i.rule = .ownerSetup ∧
        "AgentRoleUpgradeable".toList ++
          ' ' :: "inherits OwnableUpgradeable but no obvious initializer found".toList <+:
            i.text.toList := by
  obtain ⟨start, hstart, hprefix⟩ := exists_prefix_of_covers h
  rcases List.mem_pair.mp hstart with rfl | rfl
  · refine Or.inl (prefix_message_iff.mp ?_)
    simpa [Rule.code] using hprefix
  · refine Or.inr (prefix_message_iff.mp ?_)
    simpa [Rule.code] using hprefix

theorem covers_noInitializer_iff (hc : ' ' ∉ contract.toList) :
    builtin.covers (Issue.noInitializer contract).finding.message = true ↔
      contract = "AgentRoleUpgradeable" := by
  constructor
  · intro h
    obtain ⟨-, hprefix⟩ := (prefix_of_covers_builtin h).resolve_left nofun
    rw [toList_text_noInitializer] at hprefix
    exact (String.toList_inj.mp (Text.eq_of_words_prefix (by decide) hc hprefix)).symm
  · rintro rfl
    decide

theorem covers_unguardedAdmin_iff {function : String}
    (h : (⟨[]⟩ : AdminTables).covers contract function = true) :
    builtin.covers (Issue.unguardedAdmin contract function).finding.message = true ↔
      contract = "IdentityRegistryStorage" ∧ function = "bindIdentityRegistry" := by
  constructor
  · intro hcovers
    have hmem := AdminTables.mem_builtinPairs_of_covers h
    have hdots : ∀ p ∈ AdminTables.builtinPairs, '.' ∉ p.1.toList := by
      decide
    obtain ⟨-, hprefix⟩ := (prefix_of_covers_builtin hcovers).resolve_right nofun
    rw [toList_text_unguardedAdmin] at hprefix
    obtain rfl : "IdentityRegistryStorage" = contract :=
      String.toList_inj.mp (Text.eq_of_words_prefix (by decide) (hdots _ hmem) hprefix)
    refine ⟨rfl, ?_⟩
    have hfunction := (List.cons_prefix_cons.mp ((List.prefix_append_right_inj _).mp hprefix)).2
    have hnames : function = "bindIdentityRegistry" ∨ function = "addAgent" ∨
        function = "removeAgent" ∨ function = "addIdentityToStorage" := by
      simpa [AdminTables.builtinPairs, AdminTables.builtin] using hmem
    rcases hnames with rfl | rfl | rfl | rfl
    · rfl
    all_goals simp at hfunction
  · rintro ⟨rfl, rfl⟩
    decide +kernel

end AllowList

namespace Audit

variable {t : FileTree} {root : Path} {contracts : List Contract} {i : Issue}

/-- The built-in list covers the warnings of the rules that have been audited, and no others. -/
theorem covers_builtin_iff_audited (hnames : ∀ c ∈ contracts, ' ' ∉ c.name.toList)
    (hi : i ∈ issues t root {} contracts) (hwarn : i.severity = .warn) :
    AllowList.builtin.covers i.finding.message = true ↔ i ∈ Issue.audited := by
  simp only [issues, List.mem_append, or_assoc] at hi
  rcases hi with hi | hi | hi | hi
  · simp only [AdminAccess.check, List.mem_flatMap, List.mem_map, List.mem_filter] at hi
    obtain ⟨c, -, m, ⟨-, hexposed⟩, rfl⟩ := hi
    simp only [AdminAccess.isExposed, Bool.and_eq_true] at hexposed
    rw [AllowList.covers_unguardedAdmin_iff hexposed.1.1.2]
    simp [Issue.audited]
  · have hrule := rule_of_mem_transferApproval hi
    have haudited : i ∉ Issue.audited := by
      rintro hmem
      rcases List.mem_pair.mp hmem with rfl | rfl <;> cases hrule
    refine iff_of_false (fun h => ?_) haudited
    rcases AllowList.prefix_of_covers_builtin h with ⟨hr, -⟩ | ⟨hr, -⟩ <;>
      cases hrule.symm.trans hr
  · rcases i.severity_eq with ⟨hs, -⟩ | ⟨-, hr⟩
    · cases hwarn.symm.trans hs
    · exact absurd (rule_of_mem_originUse hi) hr
  · simp only [OwnerSetup.check, List.mem_map, List.mem_filter] at hi
    obtain ⟨c, ⟨hc, -⟩, rfl⟩ := hi
    rw [AllowList.covers_noInitializer_iff (hnames c hc)]
    simp [Issue.audited]

theorem severity_of_audited : ∀ i ∈ Issue.audited, i.severity = .warn := by decide

/-- With default settings a warning becomes a note if and only if it is an audited one; all others
stay warnings. -/
theorem notes_of_default_settings (hnames : ∀ c ∈ contracts, ' ' ∉ c.name.toList) :
    (run t root {} contracts).findings = (issues t root {} contracts).map Issue.finding ∧
      (run t root {} contracts).report.notes =
        ((issues t root {} contracts).filter (· ∈ Issue.audited)).map
          (fun i => { i.finding with severity := .info }) ∧
      (run t root {} contracts).report.warnings =
        ((issues t root {} contracts).filter fun i =>
          i.severity = .warn ∧ i ∉ Issue.audited).map Issue.finding := by
  have hlist : (AllowList.ofSettings ({} : Settings).allow).covers = AllowList.builtin.covers := rfl
  refine ⟨shown_ledger, ?_, ?_⟩
  · have hnotes : (run t root {} contracts).report.notes = _ := notes_reportOn balanced_ledger
    rw [hnotes, shown_ledger, hlist, List.filter_map, List.map_map]
    refine congrArg (List.map _) (List.filter_congr fun i hi => ?_)
    by_cases hs : i.severity = .warn
    · rw [Bool.eq_iff_iff]
      simp [Issue.severity_finding, hs, covers_builtin_iff_audited hnames hi hs]
    · simpa [Issue.severity_finding, hs] using fun h => hs (severity_of_audited i h)
  · have hwarnings : (run t root {} contracts).report.warnings = _ :=
      warnings_reportOn balanced_ledger
    rw [hwarnings, shown_ledger, hlist, List.filter_map]
    refine congrArg (List.map _) (List.filter_congr fun i hi => ?_)
    by_cases hs : i.severity = .warn
    · simp [Issue.severity_finding, hs, ← covers_builtin_iff_audited hnames hi hs]
    · simp [Issue.severity_finding, hs]

/-- The names of the last contract and of the last function go on after an audited one. -/
def registries : List Contract :=
  [{ name := "IdentityRegistryStorage", kind := .contract, file := "Storage.sol",
     inheritance := ["Ownable"],
     members :=
      [{ name := "bindIdentityRegistry", kind := .function, visibility := .external },
        { name := "addAgent", kind := .function, visibility := .external }] },
    { name := "AgentRoleUpgradeable", kind := .contract, file := "Roles.sol",
      inheritance := ["OwnableUpgradeable"] },
    { name := "AgentRoleUpgradeableV2", kind := .contract, file := "Roles.sol",
      inheritance := ["OwnableUpgradeable"] }]

/-- Two warnings are hidden, and the two most like them are not. -/
theorem notes_of_default_settings_registries :
    (∀ c ∈ registries, ' ' ∉ c.name.toList) ∧
      (run ⟨.directory [], []⟩ ⟨"/"⟩ {} registries).report.notes =
        [.unguardedAdmin "IdentityRegistryStorage" "bindIdentityRegistry",
          .noInitializer "AgentRoleUpgradeable"].map
            (fun i : Issue => { i.finding with severity := .info }) ∧
      (run ⟨.directory [], []⟩ ⟨"/"⟩ {} registries).report.warnings =
        [.unguardedAdmin "IdentityRegistryStorage" "addAgent", .noToken,
          .noInitializer "AgentRoleUpgradeableV2"].map Issue.finding := by
  have hnames : ∀ c ∈ registries, ' ' ∉ c.name.toList := by decide
  obtain ⟨-, hnotes, hwarnings⟩ :=
    @notes_of_default_settings ⟨.directory [], []⟩ ⟨"/"⟩ registries hnames
  have horigin (p : Issue → Bool) (hp : ∀ i, p i = true → i.severity = .warn) :
      (OriginUse.check ⟨.directory [], []⟩ ⟨"/"⟩ ({} : Settings).scanDirectories).filter p = [] := by
    refine List.filter_eq_nil_iff.mpr fun i hi h => ?_
    rcases i.severity_eq with ⟨hs, -⟩ | ⟨-, hr⟩
    · cases (hp i h).symm.trans hs
    · exact hr (rule_of_mem_originUse hi)
  rw [issues, List.filter_append, List.filter_append, horigin] at hnotes hwarnings
  · refine ⟨hnames, ?_, ?_⟩
    · rw [hnotes]
      decide
    · rw [hwarnings]
      decide
  · exact fun i h => (of_decide_eq_true h).1
  · exact fun i h => severity_of_audited i (of_decide_eq_true h)

end Audit

end TokenAudit
