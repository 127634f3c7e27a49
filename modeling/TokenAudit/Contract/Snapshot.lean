import TokenAudit.Contract.Encoding
import TokenAudit.Files.Tree
import TokenAudit.Json.Printer

/-! Contracts kept in a file, so that they can be checked without their sources. -/

namespace TokenAudit

/-- Contracts, and the name of what found them. -/
structure Snapshot where
  version : String := "1"
  engine : String := ""
  contracts : List Contract
  deriving DecidableEq

/-- Why there are no contracts to check. -/
inductive LoadError
  | unusable (path : Path) (e : FileError)
  | noSources (target : Path)
  | badSnapshot (path : Path) (e : DecodeError)
  deriving DecidableEq

namespace LoadError

def message : LoadError → String
  | unusable p e => s!"failed to read {p.text}: {e.message}"
  | noSources p => s!"no Solidity sources found under {p.text}"
  | badSnapshot p e => s!"invalid model snapshot {p.text}: {e.message}"

end LoadError

open Json

namespace Snapshot

def encode (s : Snapshot) : Json :=
  ofFields
    [("version", ofString s.version), ("engine", ofString s.engine),
      ("contracts", ofList (s.contracts.map Contract.encode))]

def fields (origin : JsonOrigin) : List Field :=
  [.optional "version" asString, .optional "engine" asString,
    .needed "contracts" (asList (Contract.decode origin))]

def decode (origin : JsonOrigin) : Decoder Snapshot := fun j => do
  let found ← asRecord origin "ModelSnapshot" (fields origin) j
  pure
    { version := ← found.getOr "version" asString "1"
      engine := ← found.getOr "engine" asString ""
      contracts := ← asList (Contract.decode origin) (found.get "contracts") }

/-- The text of a snapshot file. -/
def print (s : Snapshot) : String := s.encode.print

def read (text : List Char) : Except DecodeError Snapshot := decodeText (decode .text) text

def load (t : FileTree) (path : Path) : Except LoadError Snapshot := do
  let text ← (t.readText path).mapError (.unusable path)
  (read text).mapError (.badSnapshot path)

/-- The tree with the snapshot in the file at `path`. -/
def save (s : Snapshot) (t : FileTree) (path : Path) : Except LoadError FileTree :=
  (t.write path (Text.toBytes s.print.toList)).mapError (.unusable path)

end Snapshot

end TokenAudit
