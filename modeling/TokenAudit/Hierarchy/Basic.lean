import TokenAudit.Contract.Declaration
import TokenAudit.Graph.Preorder

/-! Which declaration a base name refers to. -/

namespace TokenAudit

/-- The files that each file imports. -/
abbrev FileImports := List (String × List String)

namespace FileImports

def edges (imports : FileImports) : List (String × String) :=
  imports.flatMap fun (file, targets) => targets.map fun t => (file, t)

/-- The files that one or more imports lead to. -/
def visible (imports : FileImports) (file : String) : List String :=
  Graph.reachable imports.edges file

end FileImports

/-- Declarations in load order, which are referred to by their positions. -/
structure Hierarchy where
  declarations : List Declaration
  imports : FileImports := []

namespace Hierarchy

variable (h : Hierarchy)

def size : Nat := h.declarations.length

def fileOf (d : Nat) : String := (h.declarations[d]?.map (·.file)).getD ""

def basesOf (d : Nat) : List String := (h.declarations[d]?.map (·.bases)).getD []

/-- The declarations other than `d` with the given name. -/
def candidates (d : Nat) (base : String) : List Nat :=
  (List.range h.size).filter fun c => c != d && (h.declarations[c]?.any (·.name == base))

/-- The declaration that `base` means in declaration `d`: one in the same file, else one in a
file that imports lead to, else the first. -/
def resolve? (d : Nat) (base : String) : Option Nat :=
  match h.candidates d base with
  | [] => none
  | [only] => some only
  | cs =>
    let file := h.fileOf d
    let visible := h.imports.visible file
    cs.find? (h.fileOf · == file) <|> cs.find? (visible.contains <| h.fileOf ·) <|> cs.head?

end Hierarchy

end TokenAudit
