import TokenAudit.Contract.Snapshot
import TokenAudit.Files.Sources
import TokenAudit.Hierarchy.Linearize
import TokenAudit.Project.Source

/-! The contracts of a project, in the order of their files and of their places in a file. -/

namespace TokenAudit

open Solidity (Outline)

/-- Where the sources of a project are. -/
structure Project where
  /-- A directory or a single source. -/
  target : Path
  /-- The directory in which packages are looked for. -/
  root : Path
  ignorePatterns : List String := []

namespace Project

def ofTarget (t : FileTree) (target : Path) : Project :=
  { target, root := if t.isFile target then target.parent?.getD ⟨""⟩ else target }

def byLine (ds : List Declaration) : List Declaration :=
  ds.mergeSort fun a b => decide (a.lineStart ≤ b.lineStart)

/-- The declarations of all sources, which may come in any order. -/
def declarations (sources : List (Path × Source)) : List Declaration :=
  (sources.mergeSort fun a b => Path.le a.1 b.1).flatMap fun (_, s) => byLine s.contracts

/-- The files that each file imports, as they are shown. Of files that are shown alike the last
counts. -/
def shownImports (root : Path) (sources : List (Path × Source)) : FileImports :=
  sources.foldl (fun imports (p, s) =>
    let file := root.display p
    imports.filter (·.1 ≠ file) ++ [(file, s.imports.map root.display)]) []

def contractsOf (root : Path) (sources : List (Path × Source)) : List Contract :=
  ({ declarations := declarations sources, imports := shownImports root sources } :
    Hierarchy).linearize

/-- The canonical root of the project, and the sources found under its target. -/
def locate (t : FileTree) (p : Project) : Except LoadError (Path × List Path) := do
  discard ((t.stat p.target).mapError (.unusable p.target))
  let directory := if p.root.text.isEmpty then ⟨"."⟩ else p.root
  let root ← (t.canonicalize directory).mapError (.unusable p.root)
  let seeds := (Sources.find t p.target p.ignorePatterns).filterMap fun f =>
    (t.canonicalize f).toOption
  if seeds.isEmpty then throw (.noSources p.target)
  pure (root, seeds)

/-- The contracts of a project whose sources are read by `outline`. -/
def loadBy (outline : String → List Char → Outline) (t : FileTree) (p : Project) :
    Except LoadError Snapshot := do
  let (root, seeds) ← p.locate t
  let sources := Source.closure outline t (Remappings.load t root) root seeds
  pure { engine := "tree-sitter-solidity", contracts := contractsOf root sources }

/-- The contracts of a project. -/
def load (t : FileTree) (p : Project) : Except LoadError Snapshot := p.loadBy Outline.read t

end Project

end TokenAudit
