import TokenAudit.Files.Tree
import TokenAudit.Project.Remapping

/-! The file that an import path leads to. -/

namespace TokenAudit

namespace Remappings

/-- The remappings of the project at `root`, none if they cannot be read. -/
def load (t : FileTree) (root : Path) : Remappings :=
  match t.readText (root.child "remappings.txt") with
  | .ok text => read text
  | .error _ => ⟨[]⟩

end Remappings

namespace Import

/-- The directories of a project in which packages are looked for. -/
def packageDirectories : List String := ["node_modules", "", "lib"]

/-- Where a path imported in the file `importer` may lead, in the order of preference. A path that
starts with a point is relative to the importer. -/
def candidates (rs : Remappings) (root importer : Path) (spec : String) : List Path :=
  if spec.toList.head? == some '.' then (importer.parent?.map (·.child spec)).toList
  else
    ((rs.rewrite? spec).map root.child).toList ++
      packageDirectories.map fun d => (root.child d).child spec

def resolve? (t : FileTree) (rs : Remappings) (root importer : Path) (spec : String) :
    Option Path := do
  let found ← (candidates rs root importer spec).find? t.isFile
  (t.canonicalize found).toOption

end Import

end TokenAudit
