import TokenAudit.Rule.Finding

/-! The faults that the rules look for, and how each is reported. -/

namespace TokenAudit

inductive Issue
  /-- An admin function shows no access control. -/
  | unguardedAdmin (contract function : String)
  /-- A token has no transfer functions. -/
  | noTransfers (contract : String)
  /-- No transfer function of a token asks whether it may transfer. -/
  | unapprovedTransfers (contract : String)
  | noToken
  /-- Sources use the origin of a transaction. -/
  | originUse (files : List String)
  /-- An upgradeable contract never sets up its owner. -/
  | noInitializer (contract : String)
  deriving DecidableEq

namespace Issue

def rule : Issue → Rule
  | unguardedAdmin .. => .adminAccess
  | noTransfers _ | unapprovedTransfers _ | noToken => .transferApproval
  | originUse _ => .originUse
  | noInitializer _ => .ownerSetup

def severity : Issue → Severity
  | originUse _ => .fail
  | _ => .warn

/-- The separator in front of each file of a list. -/
def fileMark : String := "\n  - "

def text : Issue → String
  | unguardedAdmin c f =>
    s!"{c}.{f} — not directly proven, but contract inherits access-control base"
  | noTransfers c =>
    s!"{c} has no recognizable transfer functions (variant may abstract transfers differently)"
  | unapprovedTransfers c =>
    s!"Did not find evidence that {c} transfer path reaches canTransfer() (review variant)"
  | noToken =>
    "No contract with a typical ERC-3643 token name found (add import shim to compile it)"
  | originUse files => "tx.origin usage found in:" ++ String.join (files.map (fileMark ++ ·))
  | noInitializer c =>
    s!"{c} inherits OwnableUpgradeable but no obvious initializer found"

def finding (i : Issue) : Finding :=
  { rule := i.rule, severity := i.severity, message := i.rule.code ++ ": " ++ i.text }

end Issue

end TokenAudit
