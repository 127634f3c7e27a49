import Mathlib.Data.List.TakeWhile
import TokenAudit.Proofs.Json.Decode
import TokenAudit.Proofs.Json.RoundTrip
import TokenAudit.Report.Format

/-! Reports that are encoded are decoded to themselves, and so is their text, also with blanks
behind it. -/

namespace TokenAudit

open Json

variable {origin : JsonOrigin}

theorem Rule.inverts_decode (r : Rule) :
    Inverts (Rule.decode origin) (fun r => ofString r.code) r :=
  inverts_asVariant (by decide) (by cases r <;> decide)

theorem Severity.inverts_decode (s : Severity) :
    Inverts (Severity.decode origin) (fun s => ofString s.tag) s :=
  inverts_asVariant (by decide) (by cases s <;> decide)

theorem Finding.inverts_decode (f : Finding) :
    Inverts (Finding.decode origin) Finding.encode f := by
  have hrule : Rule.decode origin (ofString f.rule.code) = .ok f.rule := Rule.inverts_decode f.rule
  have hseverity : Severity.decode origin (ofString f.severity.tag) = .ok f.severity :=
    Severity.inverts_decode f.severity
  have hrecord : asRecord origin "Finding" (Finding.fields origin) f.encode =
      .ok [("rule", ofString f.rule.code), ("severity", ofString f.severity.tag),
        ("message", ofString f.message)] := by
    refine asRecord_ofFields _ ?_ (by simp) ?_
    · simp only [List.forall_mem_cons, List.not_mem_nil, false_imp_iff, implies_true, and_true]
      exact ⟨⟨_, rfl, check_needed hrule⟩, ⟨_, rfl, check_needed hseverity⟩,
        ⟨_, rfl, check_needed rfl⟩⟩
    · simp [Finding.fields, Field.needed]
  show (asRecord origin "Finding" (Finding.fields origin) f.encode >>= _) = _
  rw [hrecord]
  show (do
    let rule ← Rule.decode origin (ofString f.rule.code)
    let severity ← Severity.decode origin (ofString f.severity.tag)
    let message ← asString (ofString f.message)
    pure { rule, severity, message }) = Except.ok f
  rw [hrule, hseverity]
  rfl

theorem Finding.plain_encode (f : Finding) : Plain f.encode := by
  refine .object ?_
  simp only [List.forall_mem_cons, List.not_mem_nil, false_imp_iff, implies_true, and_true]
  exact ⟨.string _, .string _, .string _⟩

namespace Report

/-- The report that a text holds. -/
def read (text : List Char) : Except DecodeError Report := decodeText (decode .text) text

/-- The parts of a report by the names of their fields. -/
def entries (r : Report) : List (String × Json) :=
  [("version", ofString r.version), ("command", ofString r.command),
    ("target", ofString r.target), ("contracts", ofStrings r.contracts),
    ("failures", ofList (r.failures.map Finding.encode)),
    ("warnings", ofList (r.warnings.map Finding.encode)),
    ("notes", ofList (r.notes.map Finding.encode)), ("passed", .bool r.passed)]

theorem asList_findings (fs : List Finding) :
    asList (Finding.decode origin) (ofList (fs.map Finding.encode)) = .ok fs :=
  inverts_asList fun f _ => f.inverts_decode

theorem asRecord_encode (r : Report) :
    asRecord origin "RunReport" (fields origin) r.encode = .ok r.entries := by
  have hcontracts : asList asString (ofStrings r.contracts) = .ok r.contracts :=
    inverts_asStrings r.contracts
  refine asRecord_ofFields _ ?_ (by simp) ?_
  · simp only [List.forall_mem_cons, List.not_mem_nil, false_imp_iff, implies_true, and_true]
    exact ⟨⟨_, rfl, check_needed rfl⟩, ⟨_, rfl, check_needed rfl⟩, ⟨_, rfl, check_needed rfl⟩,
      ⟨_, rfl, check_needed hcontracts⟩, ⟨_, rfl, check_needed (asList_findings _)⟩,
      ⟨_, rfl, check_needed (asList_findings _)⟩, ⟨_, rfl, check_needed (asList_findings _)⟩,
      ⟨_, rfl, check_needed rfl⟩⟩
  · simp [fields, Field.needed]

theorem inverts_decode (r : Report) : Inverts (Report.decode origin) Report.encode r := by
  have hcontracts : asList asString (ofStrings r.contracts) = .ok r.contracts :=
    inverts_asStrings r.contracts
  show (asRecord origin "RunReport" (fields origin) r.encode >>= _) = _
  rw [asRecord_encode]
  show (do
    let version ← asString (ofString r.version)
    let command ← asString (ofString r.command)
    let target ← asString (ofString r.target)
    let contracts ← asList asString (ofStrings r.contracts)
    let failures ← asList (Finding.decode origin) (ofList (r.failures.map Finding.encode))
    let warnings ← asList (Finding.decode origin) (ofList (r.warnings.map Finding.encode))
    let notes ← asList (Finding.decode origin) (ofList (r.notes.map Finding.encode))
    let passed ← asBool (.bool r.passed)
    pure { version, command, target, contracts, failures, warnings, notes, passed }) = Except.ok r
  rw [hcontracts, asList_findings, asList_findings, asList_findings]
  rfl

theorem plain_encode (r : Report) : Plain r.encode := by
  have hfindings : ∀ fs : List Finding, Plain (ofList (fs.map Finding.encode)) :=
    fun fs => plain_ofList_map fun f _ => f.plain_encode
  refine .object ?_
  simp only [List.forall_mem_cons, List.not_mem_nil, false_imp_iff, implies_true, and_true]
  exact ⟨.string _, .string _, .string _, plain_ofStrings _, hfindings _, hfindings _,
    hfindings _, .bool _⟩

/-- The text of a report is read back as the report, and blanks behind it do no harm. -/
theorem read_print_append (r : Report) {blanks : List Char}
    (hblanks : ∀ c ∈ blanks, isSpace c = true) :
    read ((ReportFormat.report r .json).toList ++ blanks) = .ok r := by
  have hdecode : Report.decode .text r.encode = .ok r := r.inverts_decode
  have hskip : skipSpace blanks = [] := List.dropWhile_eq_nil_iff.mpr hblanks
  show decodeText (Report.decode .text) (r.encode.print.toList ++ blanks) = .ok r
  rw [decodeText, read_print_append_spaces r.plain_encode hblanks, hdecode]
  simp [bind, Except.bind, pure, Except.pure, hskip]

end Report

end TokenAudit
