import TokenAudit.Solidity.Nest

/-!
Phrases: the nodes of the tree of a function body, in which calls are told apart from all other uses
of parentheses.

A call reaches from the start of its callee. A callee written without a dot is one operand:
in `a + f(x)` the callee is `f`. A dot binds more loosely than every operator but assignment and
the parts of a choice `c ? a : b`: in `a + b.f(x)` the callee is `a + b.f`.
-/

namespace TokenAudit.Solidity

/-- A node may fill a field of the node around it. -/
inductive Phrase
  /-- A single token; marks and the words of the language are nodes without a name. -/
  | leaf (field : Option String) (named : Bool) (t : Token)
  | node (kind : String) (field : Option String) (parts : List Phrase)

mutual

def Phrase.tokens : Phrase → List Token
  | .leaf _ _ t => [t]
  | .node _ _ parts => phraseTokens parts

def phraseTokens : List Phrase → List Token
  | [] => []
  | p :: ps => p.tokens ++ phraseTokens ps

end

namespace Phrase

/-- The text of a phrase as it was written. -/
def spelling (p : Phrase) : List Char := Solidity.spelling p.tokens

def field : Phrase → Option String
  | leaf field _ _ => field
  | node _ field _ => field

def isNamed : Phrase → Bool
  | leaf _ named _ => named
  | node .. => true

def inField (field : String) : Phrase → Phrase
  | leaf _ named t => leaf (some field) named t
  | node kind _ parts => node kind (some field) parts

def callKind : String := "call_expression"

def calleeField : String := "function"

def ofToken (t : Token) : Phrase := leaf none (t.kind != .mark) t

def keyword (t : Token) : Phrase := leaf none false t

/-- A node that is no call, of whatever kind. -/
def group (parts : List Phrase) : Phrase := node "expression" none parts

def call (callee : Phrase) (arguments : List Phrase) : Phrase :=
  node callKind none (callee.inField calleeField :: arguments)

/-- What a call with these parts calls: the part in the field for it, else the first with a name. -/
def callee? (parts : List Phrase) : Option Phrase :=
  parts.find? (·.field == some calleeField) <|> parts.find? isNamed

/-- The name that a node with these parts calls. -/
def calledName? (kind : String) (parts : List Phrase) : Option String :=
  if kind == callKind then
    (callee? parts).bind fun callee => (simpleName? callee.spelling).map String.ofList
  else none

end Phrase

def addName (names : List String) : Option String → List String
  | some n => if n ∈ names then names else names ++ [n]
  | none => names

mutual

/-- `names` with the names called in the phrase added, a call before the calls inside it, each
name once. -/
def Phrase.collectCalls (names : List String) : Phrase → List String
  | .leaf .. => names
  | .node kind _ parts => collectCallsOf (addName names (Phrase.calledName? kind parts)) parts

def collectCallsOf (names : List String) : List Phrase → List String
  | [] => names
  | p :: ps => collectCallsOf (if p.isNamed then p.collectCalls names else names) ps

end

/-- The last operand read. A callable one turns a following argument list into a call. -/
structure Operand where
  phrase : Phrase
  callable : Bool

/-- What the words just read announce. -/
inductive Announced
  | nothing
  /-- A parenthesized part that is no argument list of a call, as after `if` or `emit`. -/
  | heading
  /-- The type after `new`. -/
  | createdType
  /-- A block of assembly, in which no call is looked for. -/
  | assembly
  deriving DecidableEq

/-- The phrases of one level of brackets, read from the left; all lists are last first. -/
structure Reading where
  /-- Phrases to which nothing that follows can attach. -/
  closed : List Phrase := []
  /-- Parts in front of an assignment (`false`) or inside a choice (`true`), innermost first. -/
  outer : List (Bool × List Phrase) := []
  /-- The operands and operators of the current expression, before the last operand. -/
  parts : List Phrase := []
  operand : Option Operand := none
  /-- A dot was read, and the member's name comes next. -/
  atMember : Bool := false
  announced : Announced := .nothing

namespace Reading

/-- The last operand becomes a part like any other. -/
def settle (r : Reading) : Reading :=
  { r with operand := none, parts := (r.operand.map (·.phrase)).toList ++ r.parts }

/-- Ends the current expression. -/
def finish (r : Reading) : Reading :=
  let r := r.settle
  { r with
    closed := r.parts ++ r.outer.flatMap (·.2) ++ r.closed
    outer := []
    parts := []
    atMember := false }

def addOperand (r : Reading) (phrase : Phrase) (callable : Bool) : Reading :=
  { r.settle with operand := some ⟨phrase, callable⟩ }

def addPart (r : Reading) (p : Phrase) : Reading :=
  let r := r.settle
  { r with parts := p :: r.parts }

def addClosed (r : Reading) (p : Phrase) : Reading :=
  let r := r.finish
  { r with closed := p :: r.closed }

/-- Starts a new expression inside the current one. -/
def enter (r : Reading) (choice : Bool) (sign : Phrase) : Reading :=
  let r := r.addPart sign
  { r with outer := (choice, r.parts) :: r.outer, parts := [] }

/-- The parts up to the innermost choice joined, if there is one. -/
def leaveChoice? (parts : List Phrase) :
    List (Bool × List Phrase) → Option (List Phrase × List (Bool × List Phrase))
  | [] => none
  | (true, ps) :: outer => some (parts ++ ps, outer)
  | (false, ps) :: outer => leaveChoice? (parts ++ ps) outer

/-- All that was read of the current expression becomes the object of a member access. -/
def accessMember (r : Reading) (dot : Phrase) : Reading :=
  let r := r.settle
  { r with
    operand := some ⟨.group (dot :: r.parts).reverse, false⟩
    parts := []
    atMember := true }

def assignments : List String :=
  ["=", "+=", "-=", "*=", "/=", "%=", "|=", "&=", "^=", "<<=", ">>=", ">>>="]

def readMark (r : Reading) (t : Token) : Reading :=
  let p := Phrase.ofToken t
  if t.is "." then r.accessMember p
  else if t.is "," || t.is ";" || t.is "=>" then
    { r.addClosed p with announced := .nothing }
  else if t.is "?" then r.enter true p
  else if t.is ":" then
    let s := r.settle
    match leaveChoice? s.parts s.outer with
    | some (parts, outer) => { s with parts := p :: parts, outer }
    | none => r.addClosed p
  else if assignments.any t.is then r.enter false p
  else r.addPart p

/-- Words that start a statement or a part of one. -/
def statementWords : List String :=
  ["else", "do", "try", "return", "unchecked", "throw", "continue", "break"]

/-- Words whose parenthesized part is no argument list of a call. -/
def headingWords : List String :=
  ["if", "while", "for", "catch", "returns", "emit", "revert", "function"]

/-- A type with a size behind its name, such as `uint8`, `bytes32` or `fixed128x18`. -/
def isSizedType (cs : List Char) : Bool :=
  let stem := String.ofList (cs.takeWhile (!·.isDigit))
  let size := cs.dropWhile (!·.isDigit)
  if stem == "fixed" || stem == "ufixed" then
    let rest := size.dropWhile Char.isDigit
    rest.head? == some 'x' && !rest.tail.isEmpty && rest.tail.all Char.isDigit
  else
    match (String.ofList size).toNat? with
    | some n =>
      size.head? != some '0' && size.all Char.isDigit &&
        (((stem == "uint" || stem == "int") && n % 8 == 0 && n ≤ 256) ||
          (stem == "bytes" && n ≤ 32))
    | none => false

/-- Words that are followed by parentheses without calling anything. -/
def isTypeWord (t : Token) : Bool :=
  ["address", "bool", "string", "bytes", "byte", "int", "uint", "fixed", "ufixed", "var",
    "mapping", "payable", "type"].any t.is || isSizedType t.text

def readWord (r : Reading) (t : Token) : Reading :=
  let p := Phrase.ofToken t
  let k := Phrase.keyword t
  if r.atMember then
    match r.operand with
    | some o => { r with operand := some ⟨.group [o.phrase, p], true⟩, atMember := false }
    | none => { r with atMember := false }
  else if r.announced == .createdType then
    match r.operand with
    | some o => { r with operand := some ⟨.group [o.phrase, p], false⟩, announced := .nothing }
    | none => { r with announced := .nothing }
  else if statementWords.any t.is then r.addClosed k
  else if headingWords.any t.is then { r.addClosed k with announced := .heading }
  else if t.is "assembly" then { r.addClosed k with announced := .assembly }
  else if t.is "new" then { r.addOperand k false with announced := .createdType }
  else if t.is "delete" then r.addPart k
  else r.addOperand p (!isTypeWord t)

def readToken (r : Reading) (t : Token) : Reading :=
  match t.kind with
  | .word => r.readWord t
  | .mark => r.readMark t
  | .number | .quoted | .stray => r.addOperand (.ofToken t) true

def readParentheses (r : Reading) (parts : List Phrase) : Reading :=
  if r.announced == .heading then
    { r.addClosed (.group parts) with announced := .nothing }
  else
    match r.operand with
    | some ⟨p, true⟩ => { r with operand := some ⟨.call p parts, true⟩ }
    | some ⟨p, false⟩ => { r with operand := some ⟨.group (p :: parts), true⟩ }
    | none => r.addOperand (.group parts) true

def readBrackets (r : Reading) (parts : List Phrase) : Reading :=
  match r.operand with
  | some o => { r with operand := some ⟨.group (o.phrase :: parts), o.callable⟩ }
  | none => r.addOperand (.group parts) true

/-- Call options `{name: value}`, as opposed to a block. -/
def isOptions : List Nest → Bool
  | n :: colon :: _ => n.isWord && colon.is ":"
  | _ => false

def readBraces (r : Reading) (inner : List Nest) (parts : List Phrase) : Reading :=
  if r.announced == .assembly then
    { r.addClosed (.group ((tokensOf inner).map .ofToken)) with announced := .nothing }
  else
    match r.operand, isOptions inner with
    | some o, true => { r with operand := some ⟨.group (o.phrase :: parts), true⟩ }
    | _, _ => { r.addClosed (.group parts) with announced := .nothing }

/-- All phrases, first first. -/
def phrases (r : Reading) : List Phrase := r.finish.closed.reverse

end Reading

mutual

def readNest (r : Reading) : Nest → Reading
  | .token t => r.readToken t
  | .group o inner c =>
    let parts := .ofToken o :: (readNests {} inner).phrases ++ [.ofToken c]
    if o.is "(" then r.readParentheses parts
    else if o.is "[" then r.readBrackets parts
    else r.readBraces inner parts

def readNests (r : Reading) : List Nest → Reading
  | [] => r
  | n :: ns => readNests (readNest r n) ns

end

/-- The phrases of a body. -/
def Phrase.ofNests (ns : List Nest) : List Phrase := (readNests {} ns).phrases

end TokenAudit.Solidity
