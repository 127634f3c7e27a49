import TokenAudit.Contract.Basic
import TokenAudit.Rule.Issue
import TokenAudit.Rule.NamePattern
import TokenAudit.Text.Lowercase
import TokenAudit.Text.Search

/-!
Admin functions of the registries have access control. Evidence is a modifier, a word in the
declaration line or in the body, or a check of the owner. Without any, a contract that inherits
access control is reported.
-/

namespace TokenAudit

/-- Patterns for the names of admin functions, by contract. Those of `extra` come after those
that are always there. -/
structure AdminTables where
  extra : List (String × List String) := []

namespace AdminTables

def builtin : List (String × List String) :=
  [("ClaimTopicsRegistry",
      ["addClaimTopic", "removeClaimTopic", "transferOwnership", "renounceOwnership"]),
    ("TrustedIssuersRegistry", ["addTrustedIssuer", "removeTrustedIssuer", "updateIssuer"]),
    ("IdentityRegistryStorage",
      ["bindIdentityRegistry", "addAgent", "removeAgent", "addIdentityToStorage"]),
    ("IdentityRegistry",
      ["setIdentityRegistryStorage", "setClaimTopicsRegistry", "setTrustedIssuersRegistry",
        "addAgent", "removeAgent", "registerIdentity", "registerIdentityFromRegistry"])]

def patterns (t : AdminTables) (contract : String) : List String :=
  (builtin.lookup contract).getD [] ++ (t.extra.lookup contract).getD []

/-- All contracts that have a table, in ascending order. -/
def contracts (t : AdminTables) : List String :=
  ((builtin ++ t.extra).map (·.1)).eraseDups.mergeSort fun a b => decide (a ≤ b)

/-- Some pattern for the contract matches the function's name. -/
def covers (t : AdminTables) (contract function : String) : Bool :=
  (t.patterns contract).any (NamePattern.isMatch · function)

end AdminTables

/-- The names of all bases in lower case, with blanks between them. -/
def Contract.lineageText (c : Contract) : String := " ".intercalate (c.inheritance.map Text.lower)

namespace AdminAccess

def guardWords : List String := ["onlyowner", "onlyrole", "onlyagent", "onlypauser"]

def bodyWords : List String := ["onlyowner", "accesscontrol", "hasrole(", "agentrole", "onlyrole"]

def guardedBases : List String := ["ownable", "accesscontrol", "agentrole"]

def mentionsAny (text : String) (words : List String) : Bool := words.any (Text.mentions text)

def isGuard (name : String) : Bool :=
  let name := Text.lower name
  guardWords.contains name || mentionsAny name ["onlyowner", "onlyrole"]

def headline (text : String) : String := String.ofList ((Text.lines text.toList).headD [])

/-- The member shows access control. -/
def isGuarded (m : Member) : Bool :=
  let text := Text.lower m.text
  (m.modifiers.getD []).any isGuard ||
    mentionsAny (Text.lower (headline m.text)) guardWords ||
    mentionsAny text bodyWords ||
    (Text.mentions text "owner()" && mentionsAny text ["require(", "revert"])

def inheritsGuards (c : Contract) : Bool := mentionsAny c.lineageText guardedBases

def isExposed (t : AdminTables) (c : Contract) (m : Member) : Bool :=
  m.visibility.isEntryPoint && t.covers c.name m.name && !isGuarded m && inheritsGuards c

def check (t : AdminTables) (contracts : List Contract) : List Issue :=
  contracts.flatMap fun c =>
    (c.members.filter (isExposed t c)).map fun m => .unguardedAdmin c.name m.name

end AdminAccess

end TokenAudit
