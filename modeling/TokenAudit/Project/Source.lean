import TokenAudit.Graph.Rounds
import TokenAudit.Project.Import
import TokenAudit.Solidity.Outline

/-! The sources of a project with all sources that they import. -/

namespace TokenAudit

open Solidity (Outline)

/-- What is known of a source: its contracts, and the files that its imports lead to. -/
structure Source where
  contracts : List Declaration
  imports : List Path

namespace Source

/-- Reads the source at `path` by `outline`, which is given its name from `root` on and its text. -/
def load? (outline : String → List Char → Outline) (t : FileTree) (rs : Remappings)
    (root path : Path) : Option Source :=
  match t.read path with
  | .error _ => none
  | .ok bytes =>
    let read := outline (root.display path) (Text.ofBytesLossy bytes)
    some
      { contracts := read.contracts
        imports := read.imports.filterMap (Import.resolve? t rs root path) }

/-- The sources at `seeds` and all that their imports lead to, each once. -/
def closure (outline : String → List Char → Outline) (t : FileTree) (rs : Remappings)
    (root : Path) (seeds : List Path) : List (Path × Source) :=
  Graph.rounds (load? outline t rs root) Source.imports t.files seeds seeds

end Source

end TokenAudit
