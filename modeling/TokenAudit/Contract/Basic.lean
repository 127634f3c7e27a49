import TokenAudit.Text.Blank
import TokenAudit.Text.Lines

/-! Contracts as every check sees them: name, kind, file, linearized bases and members. -/

namespace TokenAudit

inductive Visibility
  | «public» | external | internal | «private»
  deriving DecidableEq

inductive ContractKind
  | contract | abstract | interface | library
  deriving DecidableEq

inductive MemberKind
  | function | modifier | constructor | fallback | receive
  deriving DecidableEq

namespace Visibility

def keyword : Visibility → String
  | .public => "public"
  | .external => "external"
  | .internal => "internal"
  | .private => "private"

def all : List Visibility := [.public, .external, .internal, .private]

/-- The visibility that a keyword names, blanks around it aside. -/
def ofKeyword? (s : String) : Option Visibility :=
  all.find? fun v => v.keyword.toList == Text.trim s.toList

/-- Callable by a transaction. -/
def isEntryPoint : Visibility → Bool
  | .public | .external => true
  | .internal | .private => false

end Visibility

namespace ContractKind

def keyword : ContractKind → String
  | .contract => "contract"
  | .abstract => "abstract"
  | .interface => "interface"
  | .library => "library"

def all : List ContractKind := [.contract, .abstract, .interface, .library]

end ContractKind

namespace MemberKind

def keyword : MemberKind → String
  | .function => "function"
  | .modifier => "modifier"
  | .constructor => "constructor"
  | .fallback => "fallback"
  | .receive => "receive"

def all : List MemberKind := [.function, .modifier, .constructor, .fallback, .receive]

end MemberKind

/-- The text of a declaration and the lines of its file that it covers. -/
structure SourceText where
  file : String
  lineStart : UInt32
  lineEnd : UInt32
  content : String
  deriving DecidableEq

namespace SourceText

/-- The text `content`, standing in `file` from line `line` on. -/
def startingAt (file : String) (line : UInt32) (content : String) : SourceText :=
  { file, content, lineStart := line
    lineEnd := line + UInt32.ofNat ((Text.lines content.toList).length - 1) }

end SourceText

/-- A function, modifier, constructor, fallback or receive. An absent `modifiers`, `source` or
`calls` is unknown, which differs from known to be empty. -/
structure Member where
  name : String
  kind : MemberKind
  visibility : Visibility
  modifiers : Option (List String) := some []
  source : Option SourceText := none
  calls : Option (List String) := some []
  deriving DecidableEq

namespace Member

def isModifier (m : Member) : Bool := m.kind == .modifier

/-- The source text, empty when it is unknown. -/
def text (m : Member) : String := (m.source.map (·.content)).getD ""

end Member

/-- A contract, abstract contract, interface or library. `inheritance` holds the names of all
bases, most derived first, without the contract itself. -/
structure Contract where
  name : String
  kind : ContractKind
  file : String
  inheritance : List String := []
  members : List Member := []
  deriving DecidableEq

namespace Contract

/-- The members that are not modifiers. -/
def functions (c : Contract) : List Member := c.members.filter (!·.isModifier)

def Declares (c : Contract) (name : String) : Prop := ∃ m ∈ c.members, m.name = name

instance (c : Contract) (name : String) : Decidable (c.Declares name) :=
  inferInstanceAs (Decidable (∃ m ∈ c.members, m.name = name))

end Contract

/-- The names of all contracts, in ascending order. -/
def sortedNames (contracts : List Contract) : List String :=
  (contracts.map (·.name)).mergeSort fun a b => decide (a ≤ b)

end TokenAudit
