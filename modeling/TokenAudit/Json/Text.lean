import TokenAudit.Json.Basic

/-! Strings of JSON documents: their characters and escapes. -/

namespace TokenAudit

namespace JsonString

/-- What a character or an escape stands for: a character, or a UTF-16 code unit. -/
inductive Unit
  | char (c : Char)
  | code (n : Nat)

/-- How the characters of a string end. -/
inductive End
  | closed (rest : List Char)
  | ended
  | controlCharacter
  | invalidEscape
  /-- `\u` without four hexadecimal digits. -/
  | invalidCode
  deriving DecidableEq

namespace End

def error? : End → Option SyntaxError
  | closed _ => none
  | ended => some .endInString
  | controlCharacter => some .controlCharacter
  | invalidEscape | invalidCode => some .invalidEscape

end End

def hexDigit? (c : Char) : Option Nat :=
  if c.isDigit then some (c.toNat - '0'.toNat)
  else if 'a' ≤ c && c ≤ 'f' then some (c.toNat - 'a'.toNat + 10)
  else if 'A' ≤ c && c ≤ 'F' then some (c.toNat - 'A'.toNat + 10)
  else none

def hexCode? (a b c d : Char) : Option Nat := do
  let a ← hexDigit? a
  let b ← hexDigit? b
  let c ← hexDigit? c
  let d ← hexDigit? d
  pure (((a * 16 + b) * 16 + c) * 16 + d)

def simpleEscape? : Char → Option Char
  | '"' => some '"'
  | '\\' => some '\\'
  | '/' => some '/'
  | 'b' => some '\x08'
  | 'f' => some '\x0c'
  | 'n' => some '\n'
  | 'r' => some '\r'
  | 't' => some '\t'
  | _ => none

/-- The units up to the closing quote, and how they end. -/
def units : List Char → List Unit × End
  | [] => ([], .ended)
  | '"' :: r => ([], .closed r)
  | '\\' :: r =>
    match r with
    | [] => ([], .ended)
    | 'u' :: r =>
      match r with
      | a :: b :: c :: d :: r =>
        match hexCode? a b c d with
        | some n =>
          let (us, e) := units r
          (.code n :: us, e)
        | none => ([], .invalidCode)
      | r => ([], if (String.ofList r).utf8ByteSize < 4 then .ended else .invalidCode)
    | c :: r =>
      match simpleEscape? c with
      | some c =>
        let (us, e) := units r
        (.char c :: us, e)
      | none => ([], .invalidEscape)
  | c :: r =>
    if c.toNat < 0x20 then ([], .controlCharacter)
    else
      let (us, e) := units r
      (.char c :: us, e)

def isHighSurrogate (n : Nat) : Bool := 0xD800 ≤ n && n ≤ 0xDBFF

def isLowSurrogate (n : Nat) : Bool := 0xDC00 ≤ n && n ≤ 0xDFFF

def pairValue (high low : Nat) : Nat := 0x10000 + (high - 0xD800) * 0x400 + (low - 0xDC00)

/-- The characters of the units, or the problem of the first surrogate without its partner. -/
def characters (e : End) : List Unit → Except SyntaxError (List Char)
  | [] => .ok []
  | .char c :: us => (c :: ·) <$> characters e us
  | .code n :: us =>
    if isLowSurrogate n then .error .loneSurrogate
    else if isHighSurrogate n then
      match us with
      | .code m :: us =>
        if isLowSurrogate m then (Char.ofNat (pairValue n m) :: ·) <$> characters e us
        else .error .loneSurrogate
      | .char _ :: _ => .error .unfinishedPair
      | [] =>
        match e with
        | .ended => .error .endInString
        | .invalidCode => .error .invalidEscape
        | _ => .error .unfinishedPair
    else (Char.ofNat n :: ·) <$> characters e us

/-- Reads a string after its opening quote. -/
def read (cs : List Char) : Except (SyntaxError × SyntaxError) (JsonString × List Char) :=
  let (us, e) := units cs
  match e, characters e us with
  | .closed rest, .ok s => .ok (.text (String.ofList s), rest)
  | .closed rest, .error problem => .ok (.unpaired problem, rest)
  | e, result =>
    let skipped := e.error?.getD .endInString
    match result with
    | .ok _ => .error (skipped, skipped)
    | .error problem => .error (problem, skipped)

def escapeCode (n : Nat) : List Char :=
  let digit (d : Nat) : Char := Nat.digitChar (d % 16)
  ['\\', 'u', digit (n / 4096), digit (n / 256), digit (n / 16), digit n]

/-- Quotes, backslashes and control characters are escaped, control characters in the shortest
way, and everything else is written as it is. -/
def escape (c : Char) : List Char :=
  match c with
  | '"' => ['\\', '"']
  | '\\' => ['\\', '\\']
  | '\x08' => ['\\', 'b']
  | '\x0c' => ['\\', 'f']
  | '\n' => ['\\', 'n']
  | '\r' => ['\\', 'r']
  | '\t' => ['\\', 't']
  | c => if c.toNat < 0x20 then escapeCode c.toNat else [c]

/-- A string with its quotes. -/
def quote (s : List Char) : List Char := '"' :: (s.flatMap escape ++ ['"'])

end JsonString

end TokenAudit
