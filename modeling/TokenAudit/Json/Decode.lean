import TokenAudit.Decimal.Shortest
import TokenAudit.Json.Reader
import TokenAudit.Text.Quoted

/-!
Decoding JSON documents into typed data. Of several problems the one that comes first in reading
order is reported; a missing field is noticed at the end of its object.
-/

namespace TokenAudit

inductive DecodeError
  | malformed (e : SyntaxError)
  | wrongType (found expected : String)
  | wrongValue (found expected : String)
  | wrongLength (length : Nat) (expected : String)
  | missingField (name : String)
  | duplicateField (name : String)
  | unknownVariant (found : String) (known : List String)
  deriving DecidableEq

namespace DecodeError

def ticked (s : String) : String := "`" ++ s ++ "`"

def message : DecodeError → String
  | malformed e => e.message
  | wrongType found expected => s!"invalid type: {found}, expected {expected}"
  | wrongValue found expected => s!"invalid value: {found}, expected {expected}"
  | wrongLength n expected => s!"invalid length {n}, expected {expected}"
  | missingField name => s!"missing field {ticked name}"
  | duplicateField name => s!"duplicate field {ticked name}"
  | unknownVariant found known =>
    let words := ", ".intercalate (known.map ticked)
    s!"unknown variant {ticked found}, expected one of {words}"

end DecodeError

/-- Where a document comes from. One read from text is met piece by piece; a value has been read
before, and its size is known. -/
inductive JsonOrigin
  | text
  | value
  deriving DecidableEq

abbrev Decoder (α : Type) := Json → Except DecodeError α

namespace JsonStop

/-- The problem for a reader that wants another item of a list. -/
def inList : JsonStop → SyntaxError
  | ended => .endInList
  | noComma => .expectedCommaOrBracket
  | endedAfterComma => .endInValue
  | closedAfterComma | noKeyAfterComma => .trailingComma

/-- The problem for a reader that skips the list. -/
def inSkippedList : JsonStop → SyntaxError
  | closedAfterComma => .expectedValue
  | s => s.inList

/-- The problem for a reader that wants no further item. -/
def afterList : JsonStop → SyntaxError
  | ended => .endInList
  | closedAfterComma => .trailingComma
  | _ => .trailingCharacters

def inObject : JsonStop → SyntaxError
  | ended => .endInObject
  | noComma => .expectedCommaOrBrace
  | endedAfterComma => .endInValue
  | closedAfterComma => .trailingComma
  | noKeyAfterComma => .keyNotString

def inSkippedObject : JsonStop → SyntaxError
  | endedAfterComma => .endInObject
  | closedAfterComma => .keyNotString
  | s => s.inObject

/-- The problem for a reader that wants the object to end after its only field. -/
def afterVariant : JsonStop → SyntaxError
  | ended => .endInObject
  | _ => .expectedValue

end JsonStop

namespace Json

/-- The kind of a value in words, or the problem that hides it. -/
def describe : Json → Except DecodeError String
  | null => .ok "null"
  | bool true => .ok "boolean `true`"
  | bool false => .ok "boolean `false`"
  | number (.natural n) => .ok ("integer " ++ DecodeError.ticked (Nat.repr n))
  | number (.negative n) => .ok ("integer " ++ DecodeError.ticked ("-" ++ Nat.repr n))
  | number (.float x) => .ok ("floating point " ++ DecodeError.ticked (Decimal.ofFloat x))
  | number .tooLarge => .error (.malformed .numberTooLarge)
  | string (.text s) => .ok ("string " ++ String.ofList (Text.showQuoted s.toList))
  | string (.unpaired e) => .error (.malformed e)
  | array .. => .ok "sequence"
  | object .. | keyless _ => .ok "map"
  | broken wanted _ => .error (.malformed wanted)

/-- The value is not of the expected type. -/
def refuse {α : Type} (j : Json) (expected : String) : Except DecodeError α := do
  throw (.wrongType (← j.describe) expected)

def stopWith {α : Type} (e : SyntaxError) : Except DecodeError α := .error (.malformed e)

def asKey : JsonString → Except DecodeError String
  | .text s => .ok s
  | .unpaired e => stopWith e

def asString : Decoder String
  | string (.text s) => .ok s
  | j => j.refuse "a string"

def asBool : Decoder Bool
  | bool b => .ok b
  | j => j.refuse "a boolean"

def asUInt32 : Decoder UInt32
  | number (.natural n) =>
    if n < UInt32.size then .ok (UInt32.ofNat n)
    else do throw (.wrongValue (← describe (.number (.natural n))) "u32")
  | number (.negative n) => do throw (.wrongValue (← describe (.number (.negative n))) "u32")
  | j => j.refuse "u32"

def asUnit : Decoder Unit
  | null => .ok ()
  | j => j.refuse "unit"

variable {α : Type}

def asOption (d : Decoder α) : Decoder (Option α)
  | null => .ok none
  | j => some <$> d j

def checkStop (stop : Option JsonStop) (problem : JsonStop → SyntaxError) :
    Except DecodeError Unit :=
  match stop with
  | none => .ok ()
  | some s => stopWith (problem s)

def asList (d : Decoder α) : Decoder (List α)
  | array items stop => do
    let xs ← items.mapM d
    checkStop stop JsonStop.inList
    pure xs
  | j => j.refuse "a sequence"

/-- An object as a list of keys and values; of equal keys the last counts. -/
def asMap (d : Decoder α) : Decoder (List (String × α))
  | object fields stop => do
    let entries ← fields.mapM fun (k, v) => do
      let key ← asKey k
      pure (key, ← d v)
    checkStop stop JsonStop.inObject
    pure (entries.foldl (fun kept (k, v) => kept.filter (·.1 != k) ++ [(k, v)]) [])
  | keyless _ => stopWith .keyNotString
  | j => j.refuse "a map"

/-- One of the words of `known`. -/
def asWord (known : List α) (word : α → String) (s : String) : Except DecodeError α :=
  match known.find? fun a => word a == s with
  | some a => .ok a
  | none => .error (.unknownVariant s (known.map word))

/-- A variant, as a word or as an object with that word as its only key and no value. -/
def asVariant (origin : JsonOrigin) (known : List α) (word : α → String) : Decoder α
  | string s => do asWord known word (← asKey s)
  | object fields stop =>
    match origin, fields with
    | .value, [(k, v)] => do
      let a ← asWord known word (← asKey k)
      asUnit v
      pure a
    | .value, _ => .error (.wrongValue "map" "map with a single key")
    | .text, (k, v) :: more => do
      let a ← asWord known word (← asKey k)
      asUnit v
      unless more.isEmpty do stopWith .expectedValue
      checkStop stop JsonStop.afterVariant
      pure a
    | .text, [] => stopWith (if stop.isNone then .expectedValue else .endInValue)
  | keyless found => found.refuse "variant identifier"
  | broken wanted _ => stopWith wanted
  | j =>
    match origin with
    | .value => j.refuse "string or map"
    | .text => stopWith .expectedValue

mutual

/-- Passes over a value of no interest. -/
def skip : Json → Except DecodeError Unit
  | null | bool _ | number _ | string _ => .ok ()
  | array items stop => do
    skipItems items
    checkStop stop JsonStop.inSkippedList
  | object fields stop => do
    skipFields fields
    checkStop stop JsonStop.inSkippedObject
  | keyless _ => stopWith .keyNotString
  | broken _ skipped => stopWith skipped

def skipItems : List Json → Except DecodeError Unit
  | [] => .ok ()
  | j :: js => do
    j.skip
    skipItems js

def skipFields : List (JsonString × Json) → Except DecodeError Unit
  | [] => .ok ()
  | (_, v) :: more => do
    v.skip
    skipFields more

end

/-- A field of a record: how its value is checked, and whether it has to be there. -/
structure Field where
  name : String
  check : Json → Except DecodeError Unit
  required : Bool

namespace Field

def needed (name : String) (d : Decoder α) : Field :=
  { name, check := fun j => (fun _ => ()) <$> d j, required := true }

def optional (name : String) (d : Decoder α) : Field :=
  { name, check := fun j => (fun _ => ()) <$> d j, required := false }

end Field

/-- The values of a record's fields. -/
abbrev Found := List (String × Json)

/-- The value of a field, or `null` if it is not there. -/
def Found.get (found : Found) (name : String) : Json := (found.lookup name).getD .null

/-- The field's value decoded, or `absent` if it is not there. -/
def Found.getOr (found : Found) (name : String) (d : Decoder α) (absent : α) :
    Except DecodeError α :=
  match found.lookup name with
  | some j => d j
  | none => .ok absent

def readEntry (fields : List Field) (found : Found) (key : String) (value : Json) :
    Except DecodeError Found :=
  match fields.find? (·.name == key) with
  | none => do
    value.skip
    pure found
  | some f => do
    if (found.lookup key).isSome then throw (.duplicateField key)
    f.check value
    pure (found ++ [(key, value)])

def readItem (found : Found) (f : Field) (value : Json) : Except DecodeError Found := do
  f.check value
  pure (found ++ [(f.name, value)])

/-- The items of a list taken as the fields of a record in order. -/
def itemsAsFields (expected : String) (stop : Option JsonStop) (index : Nat) (found : Found) :
    List Field → List Json → Except DecodeError (Found × List Json)
  | [], rest => .ok (found, rest)
  | f :: fs, j :: js => do
    itemsAsFields expected stop (index + 1) (← readItem found f j) fs js
  | f :: fs, [] => do
    checkStop stop JsonStop.inList
    if f.required then throw (.wrongLength index expected)
    itemsAsFields expected stop (index + 1) found fs []

/-- The fields of the record `name`, each checked, from an object or from a list of their values
in order. -/
def asRecord (origin : JsonOrigin) (name : String) (fields : List Field) : Decoder Found
  | object entries stop => do
    let found ← entries.foldlM (fun found (k, v) => do
      readEntry fields found (← asKey k) v) []
    checkStop stop JsonStop.inObject
    match fields.find? fun f => f.required && (found.lookup f.name).isNone with
    | some f => throw (.missingField f.name)
    | none => pure found
  | array items stop => do
    let expected := s!"struct {name} with {fields.length} elements"
    let (found, rest) ← itemsAsFields expected stop 0 [] fields items
    match origin with
    | .text =>
      unless rest.isEmpty do stopWith .trailingCharacters
      checkStop stop JsonStop.afterList
    | .value =>
      unless rest.isEmpty do throw (.wrongLength items.length "fewer elements in array")
    pure found
  | keyless _ => stopWith .keyNotString
  | j => j.refuse s!"struct {name}"

/-- Decodes a document of which nothing may follow. -/
def decodeText (d : Decoder α) (text : List Char) : Except DecodeError α := do
  let part := Json.read text
  let a ← d part.value
  match part.rest with
  | some r => unless (skipSpace r).isEmpty do stopWith .trailingCharacters
  | none => pure ()
  pure a

end Json

end TokenAudit
