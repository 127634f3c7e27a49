import TokenAudit.Json.Number
import TokenAudit.Json.Text

/-! Reading JSON documents. -/

namespace TokenAudit

namespace Json

def isSpace (c : Char) : Bool := c == ' ' || c == '\n' || c == '\t' || c == '\r'

def skipSpace (cs : List Char) : List Char := cs.dropWhile isSpace

/-- A value that was read, with the text after it unless the document breaks off in it. -/
structure Part where
  value : Json
  rest : Option (List Char)

namespace Part

def broken (wanted skipped : SyntaxError) : Part := ⟨.broken wanted skipped, none⟩

def fault (e : SyntaxError) : Part := broken e e

end Part

/-- The letters of `word`, of which the first has been read. -/
def readWord (value : Json) : List Char → List Char → Part
  | [], cs => ⟨value, some cs⟩
  | _ :: _, [] => .fault .endInValue
  | w :: ws, c :: cs => if w = c then readWord value ws cs else .fault .expectedIdent

/-- A digit is wanted and missing. -/
def noDigit : List Char → Part
  | [] => .broken .endInValue .invalidNumber
  | _ :: _ => .fault .invalidNumber

def readExponent (positive : Bool) (whole fraction : List Char) (cs : List Char) : Part :=
  match cs with
  | c :: r =>
    if c == 'e' || c == 'E' then
      let (up, r) := match r with
        | '+' :: r => (true, r)
        | '-' :: r => (false, r)
        | r => (true, r)
      let digits := r.takeWhile Char.isDigit
      if digits.isEmpty then noDigit r
      else
        ⟨.number (.ofDigits positive whole fraction (some (up, digits))),
          some (r.dropWhile Char.isDigit)⟩
    else ⟨.number (.ofDigits positive whole fraction none), some cs⟩
  | [] => ⟨.number (.ofDigits positive whole fraction none), some []⟩

/-- A number after its sign. -/
def readNumber (positive : Bool) (cs : List Char) : Part :=
  let whole := cs.takeWhile Char.isDigit
  let r := cs.dropWhile Char.isDigit
  match whole with
  | [] => noDigit cs
  | '0' :: _ :: _ => .fault .invalidNumber
  | _ =>
    match r with
    | '.' :: r =>
      let fraction := r.takeWhile Char.isDigit
      if fraction.isEmpty then noDigit r
      else readExponent positive whole fraction (r.dropWhile Char.isDigit)
    | r => readExponent positive whole [] r

/-- Items of a list, the text after its bracket, and why there is none. -/
structure Items where
  items : List Json
  stop : Option JsonStop
  rest : Option (List Char)

structure Fields where
  fields : List (JsonString × Json)
  stop : Option JsonStop
  rest : Option (List Char)

namespace Items

def cons (p : Json) (i : Items) : Items := { i with items := p :: i.items }

end Items

namespace Fields

def cons (k : JsonString) (v : Json) (f : Fields) : Fields := { f with fields := (k, v) :: f.fields }

end Fields

mutual

/-- Reads a value; each step into or past a value takes one unit of `fuel`. -/
def readValue (fuel : Nat) (cs : List Char) : Part :=
  match fuel with
  | 0 => .fault .endInValue
  | fuel + 1 =>
    match skipSpace cs with
    | [] => .fault .endInValue
    | 'n' :: r => readWord .null "ull".toList r
    | 't' :: r => readWord (.bool true) "rue".toList r
    | 'f' :: r => readWord (.bool false) "alse".toList r
    | '"' :: r =>
      match JsonString.read r with
      | .ok (s, rest) => ⟨.string s, some rest⟩
      | .error (wanted, skipped) => .broken wanted skipped
    | '[' :: r =>
      match skipSpace r with
      | ']' :: r => ⟨.array [] none, some r⟩
      | [] => ⟨.array [] (some .ended), none⟩
      | r =>
        let i := readItems fuel r
        ⟨.array i.items i.stop, i.rest⟩
    | '\x7b' :: r =>
      match skipSpace r with
      | '\x7d' :: r => ⟨.object [] none, some r⟩
      | [] => ⟨.object [] (some .ended), none⟩
      | '"' :: r =>
        let f := readFields fuel r
        ⟨.object f.fields f.stop, f.rest⟩
      | r => ⟨.keyless (readValue fuel r).value, none⟩
    | '-' :: r => readNumber false r
    | c :: r => if c.isDigit then readNumber true (c :: r) else .fault .expectedValue

/-- Reads an item of a list and all that follows it. -/
def readItems (fuel : Nat) (cs : List Char) : Items :=
  match fuel with
  | 0 => ⟨[], some .ended, none⟩
  | fuel + 1 =>
    let p := readValue fuel cs
    match p.rest with
    | none => ⟨[p.value], some .ended, none⟩
    | some r =>
      match skipSpace r with
      | [] => ⟨[p.value], some .ended, none⟩
      | ']' :: r => ⟨[p.value], none, some r⟩
      | ',' :: r =>
        match skipSpace r with
        | [] => ⟨[p.value], some .endedAfterComma, none⟩
        | ']' :: _ => ⟨[p.value], some .closedAfterComma, none⟩
        | r => (readItems fuel r).cons p.value
      | _ => ⟨[p.value], some .noComma, none⟩

/-- Reads a field of an object after its key's first quote, and all that follows it. -/
def readFields (fuel : Nat) (cs : List Char) : Fields :=
  match fuel with
  | 0 => ⟨[], some .ended, none⟩
  | fuel + 1 =>
    match JsonString.read cs with
    | .error (wanted, skipped) =>
      ⟨[(.unpaired wanted, .broken skipped skipped)], some .ended, none⟩
    | .ok (k, r) =>
      match skipSpace r with
      | [] => ⟨[(k, .broken .endInObject .endInObject)], some .ended, none⟩
      | ':' :: r =>
        let p := readValue fuel r
        match p.rest with
        | none => ⟨[(k, p.value)], some .ended, none⟩
        | some r =>
          match skipSpace r with
          | [] => ⟨[(k, p.value)], some .ended, none⟩
          | '\x7d' :: r => ⟨[(k, p.value)], none, some r⟩
          | ',' :: r =>
            match skipSpace r with
            | [] => ⟨[(k, p.value)], some .endedAfterComma, none⟩
            | '\x7d' :: _ => ⟨[(k, p.value)], some .closedAfterComma, none⟩
            | '"' :: r => (readFields fuel r).cons k p.value
            | _ => ⟨[(k, p.value)], some .noKeyAfterComma, none⟩
          | _ => ⟨[(k, p.value)], some .noComma, none⟩
      | _ => ⟨[(k, .broken .expectedColon .expectedColon)], some .ended, none⟩

end

/-- Reads a document. The second part is the text after its value. -/
def read (text : List Char) : Part := readValue (text.length + 1) text

end Json

end TokenAudit
