import TokenAudit.Report.Basic
import TokenAudit.Contract.Basic

/-! The report as lines on a console, in three parts: contracts, each finding as it is made, and
the verdict. -/

namespace TokenAudit

def ascending (names : List String) : List String := names.mergeSort fun a b => decide (a ≤ b)

namespace Report

/-- What a report says about. -/
def subject : String := "ERC-3643 static subset"

def verdict (r : Report) : String := if r.passed then "PASS ✅" else "FAIL ❌"

end Report

namespace Console

def inventory (contracts : List String) : String :=
  "\n[INFO] Contracts visible to the model:\n" ++
    String.join ((ascending contracts).map fun name => s!" - {name}\n") ++
    s!"\n\n[INFO] Contracts detected: {contracts.length}\n\n"

def finding (f : Finding) : String := s!"[{f.severity.tag}] {f.message}\n"

def warningList (ws : List Finding) : String :=
  if ws.isEmpty then ""
  else "\n[NOTE] Warnings (review manually):\n" ++ String.join (ws.map fun w => s!" - {w.message}\n")

/-- The notes, the verdict and the warnings that stay. -/
def report (r : Report) : String :=
  String.join (r.notes.map fun n => s!"[INFO] {n.message}\n") ++
    s!"\n[RESULT] {Report.subject}: {r.verdict}\n" ++ warningList r.warnings

end Console

end TokenAudit
