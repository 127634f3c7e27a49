import TokenAudit.Project.Settings
import TokenAudit.Rule.Finding
import TokenAudit.Text.Search

/-! Warnings that are known and harmless, which are reported as notes. -/

namespace TokenAudit

/-- Beginnings of the messages of known warnings. -/
structure AllowList where
  entries : List String
  deriving DecidableEq

namespace AllowList

def empty : AllowList := ⟨[]⟩

def builtin : AllowList :=
  ⟨["C1: IdentityRegistryStorage.bindIdentityRegistry",
    "C4: AgentRoleUpgradeable inherits OwnableUpgradeable but no obvious initializer found"]⟩

def allow (l : AllowList) (start : String) : AllowList :=
  if start ∈ l.entries then l else ⟨l.entries ++ [start]⟩

def ofSettings (s : AllowSettings) : AllowList :=
  s.extra.foldl allow (if s.builtin then builtin else empty)

/-- What separates a message from its explanation. -/
def separator : String := " — "

/-- The part of a message by which it is known: all before its explanation. -/
def key (message : String) : String :=
  match Text.cut? separator.toList message.toList with
  | some (head, _) => String.ofList head
  | none => message

def covers (l : AllowList) (message : String) : Bool :=
  l.entries.any fun start => start.toList.isPrefixOf (key message).toList

def isNote (l : AllowList) (f : Finding) : Bool := f.severity = .warn && l.covers f.message

/-- The findings that stay, and those that become notes. -/
def split (l : AllowList) (fs : List Finding) : List Finding × List Finding :=
  (fs.filter (!l.isNote ·), (fs.filter l.isNote).map fun f => { f with severity := .info })

end AllowList

end TokenAudit
