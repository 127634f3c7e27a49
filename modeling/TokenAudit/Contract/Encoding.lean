import TokenAudit.Contract.Basic
import TokenAudit.Json.Decode

/-! Contracts as JSON. A member's unknown parts are left out. -/

namespace TokenAudit

open Json

def Visibility.decode (origin : JsonOrigin) : Decoder Visibility :=
  asVariant origin Visibility.all Visibility.keyword

def ContractKind.decode (origin : JsonOrigin) : Decoder ContractKind :=
  asVariant origin ContractKind.all ContractKind.keyword

def MemberKind.decode (origin : JsonOrigin) : Decoder MemberKind :=
  asVariant origin MemberKind.all MemberKind.keyword

namespace SourceText

def encode (s : SourceText) : Json :=
  ofFields
    [("file", ofString s.file), ("line_start", ofNat s.lineStart.toNat),
      ("line_end", ofNat s.lineEnd.toNat), ("content", ofString s.content)]

def fields : List Field :=
  [.needed "file" asString, .needed "line_start" asUInt32, .needed "line_end" asUInt32,
    .needed "content" asString]

def decode (origin : JsonOrigin) : Decoder SourceText := fun j => do
  let found ← asRecord origin "SourceMapping" fields j
  pure
    { file := ← asString (found.get "file")
      lineStart := ← asUInt32 (found.get "line_start")
      lineEnd := ← asUInt32 (found.get "line_end")
      content := ← asString (found.get "content") }

end SourceText

namespace Member

def encode (m : Member) : Json :=
  ofFields <|
    [("name", ofString m.name), ("kind", ofString m.kind.keyword),
      ("visibility", ofString m.visibility.keyword)] ++
    (m.modifiers.map fun ms => ("modifiers", ofStrings ms)).toList ++
    (m.source.map fun s => ("source", s.encode)).toList ++
    (m.calls.map fun cs => ("calls", ofStrings cs)).toList

def fields (origin : JsonOrigin) : List Field :=
  [.needed "name" asString, .needed "kind" (MemberKind.decode origin),
    .needed "visibility" (Visibility.decode origin),
    .optional "modifiers" (asOption (asList asString)),
    .optional "source" (asOption (SourceText.decode origin)),
    .optional "calls" (asOption (asList asString))]

def decode (origin : JsonOrigin) : Decoder Member := fun j => do
  let found ← asRecord origin "FunctionDescriptor" (fields origin) j
  pure
    { name := ← asString (found.get "name")
      kind := ← MemberKind.decode origin (found.get "kind")
      visibility := ← Visibility.decode origin (found.get "visibility")
      modifiers := ← found.getOr "modifiers" (asOption (asList asString)) none
      source := ← found.getOr "source" (asOption (SourceText.decode origin)) none
      calls := ← found.getOr "calls" (asOption (asList asString)) none }

end Member

namespace Contract

def encode (c : Contract) : Json :=
  ofFields
    [("name", ofString c.name), ("kind", ofString c.kind.keyword), ("file", ofString c.file),
      ("inheritance", ofStrings c.inheritance),
      ("functions", ofList (c.members.map Member.encode))]

def fields (origin : JsonOrigin) : List Field :=
  [.needed "name" asString, .needed "kind" (ContractKind.decode origin), .needed "file" asString,
    .optional "inheritance" (asList asString),
    .optional "functions" (asList (Member.decode origin))]

def decode (origin : JsonOrigin) : Decoder Contract := fun j => do
  let found ← asRecord origin "ContractDescriptor" (fields origin) j
  pure
    { name := ← asString (found.get "name")
      kind := ← ContractKind.decode origin (found.get "kind")
      file := ← asString (found.get "file")
      inheritance := ← found.getOr "inheritance" (asList asString) []
      members := ← found.getOr "functions" (asList (Member.decode origin)) [] }

end Contract

end TokenAudit
