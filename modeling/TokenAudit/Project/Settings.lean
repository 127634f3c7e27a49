import TokenAudit.Files.Tree
import TokenAudit.Json.Decode

/-! The settings of a project. Without a settings file that can be read, defaults hold. -/

namespace TokenAudit

/-- Which warnings count as known and harmless. -/
structure AllowSettings where
  /-- The list that comes with the program holds. -/
  builtin : Bool := true
  extra : List String := []
  deriving DecidableEq

structure Settings where
  version : String := "0.1.0"
  /-- The directories in which all sources are scanned. -/
  scanDirectories : List String :=
    ["contracts", "node_modules/@tokenysolutions/t-rex", "node_modules/@onchain-id/solidity"]
  /-- Patterns for files that are no sources of the project. -/
  ignorePatterns : List String := []
  /-- Patterns for names of admin functions, by contract. -/
  adminPatterns : List (String × List String) := []
  allow : AllowSettings := {}
  deriving DecidableEq

open Json

namespace AllowSettings

def fields : List Field :=
  [.optional "builtin" asBool, .optional "extra_prefixes" (asList asString)]

def decode (origin : JsonOrigin) : Decoder AllowSettings := fun j => do
  let found ← asRecord origin "DowngradeConfig" fields j
  pure
    { builtin := ← found.getOr "builtin" asBool true
      extra := ← found.getOr "extra_prefixes" (asList asString) [] }

def encode (s : AllowSettings) : Json :=
  ofFields [("builtin", .bool s.builtin), ("extra_prefixes", ofStrings s.extra)]

end AllowSettings

namespace Settings

def fields (origin : JsonOrigin) : List Field :=
  [.optional "version" asString, .optional "scan_dirs" (asList asString),
    .optional "ignore_patterns" (asList asString),
    .optional "admin_patterns" (asMap (asList asString)),
    .optional "downgrade" (AllowSettings.decode origin)]

def decode (origin : JsonOrigin) : Decoder Settings := fun j => do
  let standard : Settings := {}
  let found ← asRecord origin "TrexConfig" (fields origin) j
  pure
    { version := ← found.getOr "version" asString standard.version
      scanDirectories := ← found.getOr "scan_dirs" (asList asString) standard.scanDirectories
      ignorePatterns := ← found.getOr "ignore_patterns" (asList asString) []
      adminPatterns := ← found.getOr "admin_patterns" (asMap (asList asString)) []
      allow := ← found.getOr "downgrade" (AllowSettings.decode origin) {} }

def encode (s : Settings) : Json :=
  ofFields
    [("version", ofString s.version), ("scan_dirs", ofStrings s.scanDirectories),
      ("ignore_patterns", ofStrings s.ignorePatterns),
      ("admin_patterns", ofFields (s.adminPatterns.map fun (c, ps) => (c, ofStrings ps))),
      ("downgrade", s.allow.encode)]

def fileName : String := "trexlint.json"

/-- The settings of the project at `root`. -/
def load (t : FileTree) (root : Path) : Settings :=
  match t.readText (root.child fileName) with
  | .error _ => {}
  | .ok text => (decodeText (decode .text) text).toOption.getD {}

end Settings

end TokenAudit
