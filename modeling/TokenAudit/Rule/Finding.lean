import TokenAudit.Json.Decode

/-! What the rules find. -/

namespace TokenAudit

inductive Rule
  | adminAccess
  | transferApproval
  | originUse
  | ownerSetup
  deriving DecidableEq

namespace Rule

/-- All rules in the order in which they run. -/
def all : List Rule := [adminAccess, transferApproval, originUse, ownerSetup]

def code : Rule → String
  | adminAccess => "C1"
  | transferApproval => "C2"
  | originUse => "C3"
  | ownerSetup => "C4"

def title : Rule → String
  | adminAccess => "admin functions have access control"
  | transferApproval => "transfer path reaches canTransfer"
  | originUse => "no tx.origin authentication"
  | ownerSetup => "upgradeable ownership has an initializer"

end Rule

inductive Severity
  | fail
  | warn
  | info
  deriving DecidableEq

namespace Severity

def all : List Severity := [fail, warn, info]

def tag : Severity → String
  | fail => "FAIL"
  | warn => "WARN"
  | info => "INFO"

end Severity

structure Finding where
  rule : Rule
  severity : Severity
  message : String
  deriving DecidableEq

/-- The findings that make a run fail. -/
def failuresOf (fs : List Finding) : List Finding := fs.filter (·.severity = .fail)

def warningsOf (fs : List Finding) : List Finding := fs.filter (·.severity = .warn)

open Json

def Rule.decode (origin : JsonOrigin) : Decoder Rule := asVariant origin Rule.all Rule.code

def Severity.decode (origin : JsonOrigin) : Decoder Severity :=
  asVariant origin Severity.all Severity.tag

namespace Finding

def encode (f : Finding) : Json :=
  ofFields
    [("rule", ofString f.rule.code), ("severity", ofString f.severity.tag),
      ("message", ofString f.message)]

def fields (origin : JsonOrigin) : List Field :=
  [.needed "rule" (Rule.decode origin), .needed "severity" (Severity.decode origin),
    .needed "message" asString]

def decode (origin : JsonOrigin) : Decoder Finding := fun j => do
  let found ← asRecord origin "Finding" (fields origin) j
  pure
    { rule := ← Rule.decode origin (found.get "rule")
      severity := ← Severity.decode origin (found.get "severity")
      message := ← asString (found.get "message") }

end Finding

end TokenAudit
