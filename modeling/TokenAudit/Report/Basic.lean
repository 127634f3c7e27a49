import TokenAudit.Rule.Finding

/-! The outcome of a run. -/

namespace TokenAudit

structure Report where
  version : String
  command : String
  target : String
  /-- The names of all contracts, in ascending order. -/
  contracts : List String
  failures : List Finding
  /-- The warnings that are not known to be harmless. -/
  warnings : List Finding
  notes : List Finding
  passed : Bool
  deriving DecidableEq

open Json

namespace Report

def exitCode (r : Report) : Nat := if r.passed then 0 else 1

def encode (r : Report) : Json :=
  ofFields
    [("version", ofString r.version), ("command", ofString r.command),
      ("target", ofString r.target), ("contracts", ofStrings r.contracts),
      ("failures", ofList (r.failures.map Finding.encode)),
      ("warnings", ofList (r.warnings.map Finding.encode)),
      ("notes", ofList (r.notes.map Finding.encode)), ("passed", .bool r.passed)]

def fields (origin : JsonOrigin) : List Field :=
  let findings := asList (Finding.decode origin)
  [.needed "version" asString, .needed "command" asString, .needed "target" asString,
    .needed "contracts" (asList asString), .needed "failures" findings,
    .needed "warnings" findings, .needed "notes" findings, .needed "passed" asBool]

def decode (origin : JsonOrigin) : Decoder Report := fun j => do
  let findings := asList (Finding.decode origin)
  let found ← asRecord origin "RunReport" (fields origin) j
  pure
    { version := ← asString (found.get "version")
      command := ← asString (found.get "command")
      target := ← asString (found.get "target")
      contracts := ← asList asString (found.get "contracts")
      failures := ← findings (found.get "failures")
      warnings := ← findings (found.get "warnings")
      notes := ← findings (found.get "notes")
      passed := ← asBool (found.get "passed") }

end Report

end TokenAudit
