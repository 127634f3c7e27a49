import TokenAudit.Contract.Declaration
import TokenAudit.Solidity.Phrase

/-!
The outline of a source file: its imports and its contracts with their members, modifiers and
calls. Bodies are read only as far as the calls in them need it.
-/

namespace TokenAudit.Solidity

/-- What a source file declares. `sound` is false when some of the file could not be read. -/
structure Outline where
  contracts : List Declaration
  /-- Import paths as written, without their quotes. -/
  imports : List String
  sound : Bool

/-- A list of nests cut into items, each with its final semicolon or braces. -/
structure Items where
  list : List (List Nest)
  sound : Bool

/-- First words of the items that a block in braces ends. -/
def blockItems : List String :=
  ["contract", "abstract", "interface", "library", "struct", "enum", "function", "modifier",
    "constructor", "fallback", "receive"]

def endsAtBlock (item : List Nest) : Bool :=
  match item.head? with
  | some n => blockItems.any n.is
  | none => false

/-- Words with which only an item of a file can start. -/
def fileItems : List String := ["contract", "abstract", "interface", "library", "import", "pragma"]

/-- `n` starts a new item although `item`, last first, has not ended. -/
def interrupts (item : List Nest) (n : Nest) : Bool :=
  fileItems.any n.is &&
    match item with
    | [] => false
    | m :: _ => !m.is "abstract"

/-- Words with which an item of a file that is no constant can start. -/
def fileStarts : List String :=
  fileItems ++ ["struct", "enum", "function", "error", "event", "type", "using"]

/-- What stands between the items of a file must be an item too. -/
def isFileItem (item : List Nest) : Bool :=
  item.head?.any (fun n => fileStarts.any n.is) || item.any (·.is "constant")

/-- `item` is the unfinished item, last first. A semicolon alone is no item. -/
def Items.read (inFile : Bool) (item : List Nest) : List Nest → Items
  | [] => ⟨[], item.isEmpty⟩
  | n :: ns =>
    if inFile && interrupts item n then
      { Items.read inFile [n] ns with sound := false }
    else
      let whole := (n :: item).reverse
      if n.is ";" || (n.isGroup "\x7b" && endsAtBlock whole) then
        let more := Items.read inFile [] ns
        { list := whole :: more.list, sound := more.sound && whole.length != 1 }
      else Items.read inFile (n :: item) ns

def spellingOf (ns : List Nest) : List Char := spelling (tokensOf ns)

/-- The first quoted run in a text. -/
def quotedRun? (text : List Char) : Option (List Char) :=
  match text.dropWhile fun c => c != '"' && c != '\'' with
  | [] => none
  | quote :: r => (Text.cut? [quote] r).map (·.1)

/-- A list cut at each comma. -/
def splitAtCommas (part : List Nest) : List Nest → List (List Nest)
  | [] => [part.reverse]
  | n :: ns =>
    if n.is "," then part.reverse :: splitAtCommas [] ns else splitAtCommas (n :: part) ns

/-- The part of a base or modifier in front of its arguments. -/
def withoutArguments (ns : List Nest) : List Nest := ns.takeWhile fun n => !n.isGroup "("

def basesOf (ns : List Nest) : List String :=
  (splitAtCommas [] ns).filterMap fun part =>
    (simpleName? (spellingOf (withoutArguments part))).map String.ofList

/-- The part of a member between its name and its body, read from the left. -/
structure Header where
  visibility : Option Visibility := none
  modifiers : List (List Nest) := []
  /-- The modifier being read, last first. -/
  current : List Nest := []
  /-- The word before was `returns` or `override`, whose parentheses are no arguments. -/
  skipping : Bool := false
  body : Option (List Nest) := none

namespace Header

def visibility? (n : Nest) : Option Visibility := Visibility.all.find? fun v => n.is v.keyword

/-- Words of a header that are neither a visibility nor a modifier. -/
def plainWords : List String := ["pure", "view", "payable", "virtual", "override", "returns"]

def finish (h : Header) : Header :=
  if h.current.isEmpty then h
  else { h with modifiers := h.current.reverse :: h.modifiers, current := [] }

def next (h : Header) (n : Nest) : Header :=
  match n with
  | .group o inner _ =>
    if o.is "\x7b" then { h.finish with body := some inner }
    else if h.skipping || h.current.isEmpty then { h with skipping := false }
    else { h with current := n :: h.current }.finish
  | .token t =>
    if t.is "." then { h with current := n :: h.current }
    else if h.current.head?.any (·.is ".") then { h with current := n :: h.current }
    else
      let h := { h.finish with skipping := false }
      match visibility? n with
      | some v => { h with visibility := h.visibility <|> some v }
      | none =>
        if t.is "returns" || t.is "override" then { h with skipping := true }
        else if plainWords.any t.is || !t.isWord then h
        else { h with current := [n] }

def read (ns : List Nest) : Header := (ns.foldl next {}).finish

def modifierNames (h : Header) : List String :=
  h.modifiers.reverse.filterMap fun ns => (simpleName? (spellingOf ns)).map String.ofList

end Header

/-- A header whose visibility is not written. -/
def defaultVisibility (kind : MemberKind) (holder : ContractKind) : Visibility :=
  match holder, kind with
  | .interface, _ => .external
  | _, .modifier => .internal
  | _, .fallback | _, .receive => .external
  | _, _ => .public

/-- A nameless function is the type of a variable when the item has a value or ends `… name;`. -/
def declaresVariable (item : List Nest) : Bool :=
  item.any (·.is "=") ||
  match item.reverse with
  | semicolon :: n :: _ =>
    semicolon.is ";" && n.isWord && !(Header.visibility? n).isSome &&
      !Header.plainWords.any n.is
  | _ => false

/-- The kind and name of the member that an item declares, and the nests after its name. -/
def memberHead? : List Nest → Option (MemberKind × String × List Nest)
  | [] => none
  | first :: rest =>
    let named (kind : MemberKind) : Option (MemberKind × String × List Nest) :=
      match rest with
      | .token t :: more =>
        if t.isWord then some (kind, String.ofList t.text, more) else none
      | _ => none
    let called (kind : MemberKind) : Option (MemberKind × String × List Nest) :=
      if rest.head?.any (·.isGroup "(") then some (kind, kind.keyword, rest) else none
    if first.is "function" then
      named .function <|>
        (if declaresVariable (first :: rest) then none else called .fallback)
    else if first.is "modifier" then named .modifier
    else if first.is "constructor" then called .constructor
    else if first.is "fallback" || first.is "receive" then called .fallback
    else none

/-- A nameless member is `receive` when that word stands before its parameters, also inside a
comment or another word. -/
def receives (text : List Char) : Bool :=
  Text.hasInfix "receive".toList (text.takeWhile (· != '('))

def member? (file : String) (holder : ContractKind) (item : List Nest) : Option Member := do
  let (kind, name, rest) ← memberHead? item
  let tokens := tokensOf item
  let text := spelling tokens
  let (kind, name) :=
    if kind == .fallback && receives text then (.receive, MemberKind.receive.keyword)
    else (kind, name)
  let header := Header.read rest
  let first ← tokens.head?
  pure
    { name, kind
      visibility := header.visibility.getD (defaultVisibility kind holder)
      modifiers := some header.modifierNames
      source := some
        { file, content := String.ofList text
          lineStart := UInt32.ofNat (first.row + 1)
          lineEnd := UInt32.ofNat (lastRow tokens + 1) }
      calls := some (collectCallsOf [] (Phrase.ofNests (header.body.getD []))) }

def contractKind? (n : Nest) : Option ContractKind := ContractKind.all.find? fun k => n.is k.keyword

def membersOf (file : String) (kind : ContractKind) (body : List Nest) : List Member :=
  (Items.read false [] body).list.filterMap (member? file kind)

def declaration? (file : String) (item : List Nest) : Option Declaration := do
  let first ← item.head?
  let kind ← contractKind? first
  let named := if kind == .abstract then item.drop 2 else item.drop 1
  let .token name ← named.head? | none
  let .group _ body _ ← item.getLast? | none
  guard name.isWord
  let bases := match (named.drop 1).dropLast with
    | n :: ns => if n.is "is" then basesOf ns else []
    | [] => []
  let start ← (tokensOf item).head?
  pure
    { name := String.ofList name.text, kind, file, bases
      lineStart := UInt32.ofNat (start.row + 1)
      members := membersOf file kind body }

def import? (item : List Nest) : Option String :=
  if item.head?.any (·.is "import") then (quotedRun? (spellingOf item)).map String.ofList else none

/-- Every item in the body of a contract ends with a semicolon or its block. -/
def soundBody (item : List Nest) : Bool :=
  match item.head?, item.getLast? with
  | some n, some (.group _ body _) => !(contractKind? n).isSome || (Items.read false [] body).sound
  | _, _ => true

/-- The outline of the file named `file` with the text `source`. -/
def Outline.read (file : String) (source : List Char) : Outline :=
  let tokens := Tokens.scan source
  let (nests, balanced) := Nesting.ofTokens tokens.list
  let items := Items.read true [] nests
  { contracts := items.list.filterMap (declaration? file)
    imports := items.list.filterMap import?
    sound := tokens.sound && balanced && items.sound &&
      items.list.all fun item => isFileItem item && soundBody item }

end TokenAudit.Solidity
