/-!
JSON documents as far as they could be read. A document that breaks off holds all that stands
before the break, so that a reader of its content meets problems of content and of form in the
order in which they stand in the text.
-/

namespace TokenAudit

/-- A number of a document. Integers that do not fit 64 bits are floating point numbers. -/
inductive JsonNumber
  | natural (n : Nat)
  /-- The integer `-n`. -/
  | negative (n : Nat)
  | float (x : Float)
  /-- A number whose magnitude no floating point number reaches. -/
  | tooLarge

/-- What makes a text no JSON document. -/
inductive SyntaxError
  | endInValue
  | endInList
  | endInObject
  | endInString
  | expectedValue
  | expectedIdent
  | expectedColon
  | expectedCommaOrBrace
  | expectedCommaOrBracket
  | keyNotString
  | trailingComma
  | trailingCharacters
  | invalidNumber
  | numberTooLarge
  | invalidEscape
  | unfinishedPair
  | loneSurrogate
  | controlCharacter
  deriving DecidableEq

namespace SyntaxError

def message : SyntaxError → String
  | endInValue => "EOF while parsing a value"
  | endInList => "EOF while parsing a list"
  | endInObject => "EOF while parsing an object"
  | endInString => "EOF while parsing a string"
  | expectedValue => "expected value"
  | expectedIdent => "expected ident"
  | expectedColon => "expected `:`"
  | expectedCommaOrBrace => "expected `,` or `\x7d`"
  | expectedCommaOrBracket => "expected `,` or `]`"
  | keyNotString => "key must be a string"
  | trailingComma => "trailing comma"
  | trailingCharacters => "trailing characters"
  | invalidNumber => "invalid number"
  | numberTooLarge => "number out of range"
  | invalidEscape => "invalid escape"
  | unfinishedPair => "unexpected end of hex escape"
  | loneSurrogate => "lone leading surrogate in hex escape"
  | controlCharacter => "control character (\\u0000-\\u001F) found while parsing a string"

end SyntaxError

/-- A string of a document. Escapes may name half of a surrogate pair, which no text holds; such
a string does no harm where it is skipped. -/
inductive JsonString
  | text (s : String)
  | unpaired (e : SyntaxError)

/-- Why a list or an object has no end. -/
inductive JsonStop
  | ended
  | noComma
  | endedAfterComma
  | closedAfterComma
  /-- In an object, something other than a string follows a comma. -/
  | noKeyAfterComma
  deriving DecidableEq

inductive Json
  | null
  | bool (b : Bool)
  | number (n : JsonNumber)
  | string (s : JsonString)
  | array (items : List Json) (stop : Option JsonStop)
  | object (fields : List (JsonString × Json)) (stop : Option JsonStop)
  /-- An object whose first key is `found`, which is no string. -/
  | keyless (found : Json)
  /-- No value: the problem met when a value is wanted here, and when it is to be skipped. -/
  | broken (wanted skipped : SyntaxError)

namespace Json

def ofString (s : String) : Json := .string (.text s)

def ofNat (n : Nat) : Json := .number (.natural n)

def ofList (items : List Json) : Json := .array items none

def ofStrings (ss : List String) : Json := ofList (ss.map ofString)

def ofFields (fields : List (String × Json)) : Json :=
  .object (fields.map fun (k, v) => (.text k, v)) none

end Json

end TokenAudit
