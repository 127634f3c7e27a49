import TokenAudit.Files.Tree
import TokenAudit.Rule.Issue
import TokenAudit.Text.Search

/-!
No source uses the origin of a transaction. Sources are read as they are, whether or not any
contract in them is known.
-/

namespace TokenAudit.OriginUse

def forbidden : List Char := "tx.origin".toList

/-- The lists put together in the order of their names. -/
def inOrder (lists : List (String × List Path)) : List Path :=
  (lists.mergeSort fun a b => decide (a.1 ≤ b.1)).flatMap (·.2)

/-- The file can be read and holds the forbidden text. -/
def isHit (t : FileTree) (path : Path) : Bool :=
  path.isSolidity &&
    match t.read path with
    | .ok bytes => Text.hasInfix forbidden (Text.ofBytesLossy bytes)
    | .error _ => false

mutual

/-- All files below an entry, in the order of their names at every level; links are not
followed. -/
def filesUnder (path : Path) : Entry → List Path
  | .file _ => [path]
  | .directory children => inOrder (filesAmong path children)
  | .link _ => []

/-- The files below each entry of a directory, with the entry's name. -/
def filesAmong (directory : Path) : List (String × Entry) → List (String × List Path)
  | [] => []
  | (name, e) :: more =>
    (name, filesUnder (directory.child name) e) :: filesAmong directory more

end

/-- The files below the scan root `dir` that use the origin of a transaction. -/
def hitsIn (t : FileTree) (root : Path) (dir : String) : List Path :=
  let base := root.join ⟨dir⟩
  match t.stat base with
  | .ok (.directory children) => (filesUnder base (.directory children)).filter (isHit t)
  | _ => []

/-- The paths of all hits from `root` on, scan root after scan root. -/
def scan (t : FileTree) (root : Path) (dirs : List String) : List String :=
  (dirs.flatMap (hitsIn t root)).map (root.display ·)

def check (t : FileTree) (root : Path) (dirs : List String) : List Issue :=
  match scan t root dirs with
  | [] => []
  | hits => [.originUse hits]

end TokenAudit.OriginUse
