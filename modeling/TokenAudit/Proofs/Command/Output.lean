import TokenAudit.Proofs.Command.ExitCode
import TokenAudit.Proofs.Report.Encoding

/-! What the command prints of an audit as JSON: one document, from which the report is read back. -/

namespace TokenAudit

namespace ReportFormat

/-- A printed report begins and ends with a brace. -/
theorem exists_report_json_eq (r : Report) :
    ∃ cs, (report r .json).toList = '\x7b' :: (cs ++ ['\x7d']) :=
  ⟨_, String.toList_ofList⟩

end ReportFormat

namespace Check

variable {t t' : FileTree} {a : Arguments} {model : Snapshot} {words : List String}

theorem endLine_empty : endLine "" = "" := rfl

theorem endLine_report_json (r : Report) :
    endLine (ReportFormat.report r .json) = ReportFormat.report r .json ++ "\n" := by
  obtain ⟨cs, hcs⟩ := ReportFormat.exists_report_json_eq r
  have hempty : (ReportFormat.report r .json).isEmpty ≠ true := by
    rw [Ne, String.isEmpty_iff, ← String.toList_eq_nil_iff, hcs]
    exact List.cons_ne_nil _ _
  have hlast : (ReportFormat.report r .json).toList.getLast? ≠ some '\n' := by
    rw [hcs, ← List.cons_append, List.getLast?_concat]
    decide
  simp [endLine, hempty, hlast]

/-- Contracts and findings are passed over in silence. -/
theorem output_json (findings : List Finding) (r : Report) :
    output .json findings r = ReportFormat.report r .json ++ "\n" := by
  have hsilent : String.join (findings.map fun x => endLine (ReportFormat.finding x .json)) = "" := by
    induction findings with
    | nil => rfl
    | cons f fs ih =>
      rw [List.map_cons, String.join_cons, ih]
      rfl
  have hinventory : endLine (ReportFormat.inventory r.contracts .json) = "" := endLine_empty
  rw [output, hinventory, hsilent, endLine_report_json]
  simp

/-- The report of an audit, as the command prints it. -/
def reportOf (t t' : FileTree) (a : Arguments) (model : Snapshot) : Report :=
  (audit t' a (rootOf t a) (Settings.load t (rootOf t a)) model).report

/-- A report that is printed as JSON is read back as it was. If JSON is asked for, a run that comes
to its audit prints the report on it and a line feed, so that the report can be read from all that
is printed. -/
theorem read_output_json :
    (∀ r : Report, Report.read (ReportFormat.report r .json).toList = .ok r) ∧
      ∀ {t t' : FileTree} {words : List String} {a : Arguments} {model : Snapshot},
        Arguments.read words = .ok a → a.json = true → Audits t a model t' →
          (run t words).output =
              ReportFormat.report (reportOf t t' a model) .json ++ "\n" ∧
            Report.read (run t words).output.toList = .ok (reportOf t t' a model) := by
  refine ⟨fun r => ?_, fun {t t' words a model} hread hjson h => ?_⟩
  · have hnone : ∀ c ∈ ([] : List Char), Json.isSpace c = true := by simp
    have hback := r.read_print_append hnone
    rwa [List.append_nil] at hback
  · have hrun : run t words = check t a := by
      rw [run, hread]
    have hformat : formatOf a = .json := by
      rw [formatOf, if_pos hjson]
    have houtput : (run t words).output =
        ReportFormat.report (reportOf t t' a model) .json ++ "\n" := by
      rw [hrun, (check_of_audits h).2, hformat, output_json]
      rfl
    have hfeed : ∀ c ∈ "\n".toList, Json.isSpace c = true := by
      intro c hc
      have hlast : "\n".toList = ['\n'] := rfl
      rw [hlast] at hc
      obtain rfl := List.mem_singleton.mp hc
      rfl
    refine ⟨houtput, ?_⟩
    rw [houtput, String.toList_append]
    exact (reportOf t t' a model).read_print_append hfeed

/-- The arguments of the audit of `kept`, with the report as JSON. -/
def keptWords : List String :=
  ["--json", "--root", "..", "--model", "../model.json", "--report", "reports/audit.md"]

theorem read_output_json_kept :
    Arguments.read keptWords = .ok { keptArguments with json := true } ∧
      Audits kept { keptArguments with json := true } Snapshot.guarded kept ∧
        ∃ r : Report, Report.read (run kept keptWords).output.toList = .ok r ∧
          r.target = "." ∧ r.contracts = ["A"] := by
  have hread : Arguments.read keptWords = .ok { keptArguments with json := true } := rfl
  have haudits : Audits kept { keptArguments with json := true } Snapshot.guarded kept :=
    .plain (loads_kept.shown true false keptArguments.report) rfl
  exact ⟨hread, haudits, _, (read_output_json.2 hread rfl haudits).2, rfl, by decide +kernel⟩

end Check

end TokenAudit
