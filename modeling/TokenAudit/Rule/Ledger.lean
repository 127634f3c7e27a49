import TokenAudit.Rule.Issue

/-! The findings of a run as it makes them. Each is shown at once, and put down either as a failure
or as a warning. -/

namespace TokenAudit

structure Ledger where
  /-- All findings in the order in which they were shown. -/
  shown : List Finding := []
  failures : List Finding := []
  warnings : List Finding := []

namespace Ledger

def fail (l : Ledger) (rule : Rule) (message : String) : Ledger :=
  let f : Finding := { rule, severity := .fail, message }
  { l with shown := l.shown ++ [f], failures := l.failures ++ [f] }

def warn (l : Ledger) (rule : Rule) (message : String) : Ledger :=
  let f : Finding := { rule, severity := .warn, message }
  { l with shown := l.shown ++ [f], warnings := l.warnings ++ [f] }

def record (l : Ledger) (i : Issue) : Ledger :=
  let f := i.finding
  match f.severity with
  | .fail => l.fail f.rule f.message
  | _ => l.warn f.rule f.message

def recordAll (l : Ledger) (is : List Issue) : Ledger := is.foldl record l

end Ledger

end TokenAudit
