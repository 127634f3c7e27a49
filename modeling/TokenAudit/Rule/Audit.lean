import TokenAudit.Report.Basic
import TokenAudit.Rule.AdminAccess
import TokenAudit.Rule.AllowList
import TokenAudit.Rule.Ledger
import TokenAudit.Rule.OriginUse
import TokenAudit.Rule.OwnerSetup
import TokenAudit.Rule.TransferApproval

/-! A run of all rules over the contracts and files of a project. -/

namespace TokenAudit

/-- The version of the program. -/
def programVersion : String := "0.3.0"

/-- The findings in the order in which they are made, and the report on them. -/
structure Audit where
  findings : List Finding
  report : Report

namespace Audit

/-- What the rules put down, one rule after another. -/
def ledger (t : FileTree) (root : Path) (s : Settings) (contracts : List Contract) : Ledger :=
  let l : Ledger := {}
  let l := l.recordAll (AdminAccess.check ⟨s.adminPatterns⟩ contracts)
  let l := l.recordAll (TransferApproval.check contracts)
  let l := l.recordAll (OriginUse.check t root s.scanDirectories)
  l.recordAll (OwnerSetup.check contracts)

def reportOn (root : Path) (s : Settings) (contracts : List Contract) (l : Ledger) : Report :=
  let (warnings, notes) := (AllowList.ofSettings s.allow).split l.warnings
  { version := programVersion
    command := "check"
    target := root.text
    contracts := sortedNames contracts
    failures := l.failures
    warnings, notes
    passed := l.failures.isEmpty }

def run (t : FileTree) (root : Path) (s : Settings) (contracts : List Contract) : Audit :=
  let l := ledger t root s contracts
  { findings := l.shown, report := reportOn root s contracts l }

end Audit

end TokenAudit
