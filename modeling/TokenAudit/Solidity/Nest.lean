import TokenAudit.Solidity.Token

/-! Tokens grouped by the brackets around them. -/

namespace TokenAudit.Solidity

inductive Nest
  | token (t : Token)
  | group (opening : Token) (inner : List Nest) (closing : Token)

mutual

/-- The tokens of a nest, brackets included. -/
def Nest.tokens : Nest → List Token
  | .token t => [t]
  | .group o inner c => o :: (tokensOf inner ++ [c])

def tokensOf : List Nest → List Token
  | [] => []
  | n :: ns => n.tokens ++ tokensOf ns

end

namespace Nest

def is (n : Nest) (text : String) : Bool :=
  match n with
  | .token t => t.is text
  | .group .. => false

def isWord (n : Nest) : Bool :=
  match n with
  | .token t => t.isWord
  | .group .. => false

/-- A group that `opening` opens. -/
def isGroup (n : Nest) (opening : String) : Bool :=
  match n with
  | .token _ => false
  | .group o _ _ => o.is opening

end Nest

/-- A group that is still open: its bracket and, last first, what stood before it. -/
structure OpenGroup where
  opening : Token
  earlier : List Nest

/-- Nests read so far; `current` is last first. -/
structure Nesting where
  openGroups : List OpenGroup := []
  current : List Nest := []
  balanced : Bool := true

namespace Nesting

def closes (opening closing : Token) : Bool :=
  (opening.is "(" && closing.is ")") || (opening.is "[" && closing.is "]") ||
    (opening.is "\x7b" && closing.is "\x7d")

def isOpening (t : Token) : Bool := t.is "(" || t.is "[" || t.is "\x7b"

def isClosing (t : Token) : Bool := t.is ")" || t.is "]" || t.is "\x7d"

/-- A closing bracket that does not match the innermost open one is left out. -/
def next (n : Nesting) (t : Token) : Nesting :=
  if isOpening t then
    { n with openGroups := ⟨t, n.current⟩ :: n.openGroups, current := [] }
  else if isClosing t then
    match n.openGroups with
    | g :: gs =>
      if closes g.opening t then
        { n with
          openGroups := gs
          current := .group g.opening n.current.reverse t :: g.earlier }
      else { n with balanced := false }
    | [] => { n with balanced := false }
  else { n with current := .token t :: n.current }

/-- What stands outside all groups; a group that is never closed is left out. -/
def outermost (n : Nesting) : List Nest :=
  match n.openGroups.getLast? with
  | some g => g.earlier.reverse
  | none => n.current.reverse

def ofTokens (ts : List Token) : List Nest × Bool :=
  let n := ts.foldl next {}
  (n.outermost, n.balanced && n.openGroups.isEmpty)

end Nesting

end TokenAudit.Solidity
