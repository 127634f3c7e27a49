/-!
Paths as they are written. Repeated separators and `.` parts say nothing, except a `.` at the
start; they stay in the text of a path but not among its components.
-/

namespace TokenAudit

structure Path where
  text : String
  deriving DecidableEq

inductive PathComponent
  | root
  | here
  | parent
  | name (s : String)
  deriving DecidableEq

namespace PathComponent

/-- The place of a component among those of other kinds. -/
def rank : PathComponent → Nat
  | root => 0
  | here => 1
  | parent => 2
  | name _ => 3

def compare (a b : PathComponent) : Ordering :=
  match a, b with
  | name s, name t => if s < t then .lt else if s = t then .eq else .gt
  | a, b => Ord.compare a.rank b.rank

end PathComponent

namespace Path

/-- The parts between separators. -/
def parts : List Char → List (List Char)
  | [] => [[]]
  | '/' :: r => [] :: parts r
  | c :: r =>
    match parts r with
    | [] => [[c]]
    | p :: ps => (c :: p) :: ps

def ofParts (ps : List (List Char)) : List PathComponent :=
  ps.filterMap fun p =>
    if p.isEmpty || p == ['.'] then none
    else if p == ['.', '.'] then some .parent
    else some (.name (String.ofList p))

/-- What stands in front of the first proper part: the root, a leading `.`, or nothing. -/
def lead : List Char → List Char × List Char
  | '/' :: r => (['/'], r)
  | ['.'] => (['.'], [])
  | '.' :: '/' :: r => (['.'], '/' :: r)
  | r => ([], r)

def leadComponents : List Char → List PathComponent
  | ['/'] => [.root]
  | ['.'] => [.here]
  | _ => []

def components (p : Path) : List PathComponent :=
  let (front, body) := lead p.text.toList
  leadComponents front ++ ofParts (parts body)

/-- Separators and `.` parts at the start removed. -/
def trimFront : List Char → List Char
  | [] => []
  | ['.'] => []
  | '/' :: r => trimFront r
  | '.' :: '/' :: r => trimFront r
  | r => r

/-- Separators and `.` parts at the end removed, from a text whose last character comes first. -/
def trimBack : List Char → List Char
  | [] => []
  | ['.'] => []
  | '/' :: r => trimBack r
  | '.' :: '/' :: r => trimBack ('/' :: r)
  | r => r

def trimEnd (cs : List Char) : List Char := (trimBack cs.reverse).reverse

/-- The path without its last component. -/
def parent? (p : Path) : Option Path :=
  let (front, body) := lead p.text.toList
  let back := trimBack body.reverse
  if back.isEmpty then
    if front == ['.'] then some ⟨""⟩ else none
  else
    let rest := trimBack (back.dropWhile (· != '/'))
    some ⟨String.ofList (front ++ rest.reverse)⟩

def isAbsolute (p : Path) : Bool := p.text.toList.head? == some '/'

/-- `q` taken from `p`. -/
def join (p q : Path) : Path :=
  if q.isAbsolute then q
  else if p.text.isEmpty || p.text.toList.getLast? == some '/' then ⟨p.text ++ q.text⟩
  else ⟨p.text ++ "/" ++ q.text⟩

def child (p : Path) (name : String) : Path := p.join ⟨name⟩

def fileName? (p : Path) : Option String :=
  match p.components.getLast? with
  | some (.name s) => some s
  | _ => none

/-- The text after the last point of the file name, unless the name starts with that point. -/
def extension? (p : Path) : Option (List Char) := do
  let name := (← p.fileName?).toList
  let tail := name.reverse.takeWhile (· != '.')
  if tail.length + 1 < name.length then some tail.reverse else none

/-- A Solidity source by its name. -/
def isSolidity (p : Path) : Bool := p.extension? == some "sol".toList

/-- Drops the first component of the part of a path behind its lead. -/
def dropPart (cs : List Char) : List Char := (trimFront cs).dropWhile (· != '/')

def dropComponents : Nat → List Char → List Char
  | 0, cs => cs
  | n + 1, cs => dropComponents n (dropPart cs)

/-- The text of `p` behind the components of `base`, if these are its first. -/
def stripPrefix? (base p : Path) : Option Path :=
  if base.components.isPrefixOf p.components then
    if base.components.isEmpty then some ⟨String.ofList (trimEnd p.text.toList)⟩
    else
      let (front, body) := lead p.text.toList
      let dropped := base.components.length - front.length
      some ⟨String.ofList (trimEnd (trimFront (dropComponents dropped body)))⟩
  else none

/-- `p` relative to `base` if it lies inside, with `/` for every separator. -/
def display (base p : Path) : String :=
  ((stripPrefix? base p).getD p).text.map fun c => if c == '\\' then '/' else c

def compareComponents : List PathComponent → List PathComponent → Ordering
  | [], [] => .eq
  | [], _ :: _ => .lt
  | _ :: _, [] => .gt
  | a :: as, b :: bs =>
    match a.compare b with
    | .eq => compareComponents as bs
    | o => o

/-- Order by components. -/
def le (p q : Path) : Bool := compareComponents p.components q.components != .gt

end Path

end TokenAudit
