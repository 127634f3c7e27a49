import TokenAudit.Text.Blank
import TokenAudit.Text.Lines
import TokenAudit.Text.Search

/-! Remappings of import paths: lines `start=replacement`, of which the longest start counts. -/

namespace TokenAudit

structure Remapping where
  start : List Char
  replacement : List Char
  deriving DecidableEq

namespace Remapping

/-- A context in front of a colon says nothing. -/
def dropContext (line : List Char) : List Char :=
  match Text.cut? [':'] line with
  | some (_, rest) => if rest.contains '=' then rest else line
  | none => line

/-- The remapping in a line, which may be blank or a comment. -/
def ofLine? (line : List Char) : Option Remapping :=
  let line := Text.trim line
  if line.isEmpty || line.head? == some '#' then none
  else (Text.cut? ['='] (dropContext line)).map fun (start, replacement) =>
    { start := Text.trim start, replacement := Text.trim replacement }

def size (r : Remapping) : Nat := (String.ofList r.start).utf8ByteSize

def rewrite? (r : Remapping) (spec : List Char) : Option (List Char) :=
  (Text.dropPrefix? r.start spec).map (r.replacement ++ ·)

end Remapping

/-- The remappings of a project, those with the longest start first. -/
structure Remappings where
  list : List Remapping
  deriving DecidableEq

namespace Remappings

def read (text : List Char) : Remappings :=
  ⟨((Text.lines text).filterMap Remapping.ofLine?).mergeSort fun a b => decide (b.size ≤ a.size)⟩

/-- The path after the first remapping whose start it has. -/
def rewrite? (rs : Remappings) (spec : String) : Option String :=
  (rs.list.findSome? (·.rewrite? spec.toList)).map String.ofList

end Remappings

end TokenAudit
