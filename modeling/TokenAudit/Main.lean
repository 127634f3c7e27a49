import TokenAudit.Command.Check

/-!
The program: takes in the files around its target, runs the command on them and writes what it
has changed.
-/

namespace TokenAudit.Disk

def locationOf (path : String) : List String :=
  ((Path.parts path.toList).map String.ofList).filter (· ≠ "")

def put (t : FileTree) (path : String) (e : Entry) : FileTree :=
  { t with root := Entry.insert e (locationOf path) t.root }

def holds (t : FileTree) (path : String) : Bool := (t.entry? (locationOf path)).isSome

/-- The names of files whose content matters wherever they are, besides sources. -/
def contentNames : List String :=
  [".trexignore", ".ignore", ".gitignore", "exclude", Settings.fileName, "remappings.txt"]

def readFile (path : String) : IO Entry := do
  pure (.file (← IO.FS.readBinFile path).toList)

/-- The canonical path, empty if there is none. -/
def canonical (path : String) : IO String := do
  try pure (← IO.FS.realPath path).toString catch _ => pure ""

def isDirectory (path : String) : IO Bool := do
  if path.isEmpty then pure false else (← IO.FS.realPath path).isDir

/-- The canonical path of the directory that holds a file. -/
def parentOf (path : String) : IO String :=
  canonical (((⟨path⟩ : Path).parent?.getD ⟨"."⟩).join ⟨"."⟩).text

/-- A directory with all below it, and where the links in it lead. Only files that the command
can read have their content. -/
partial def takeDirectory (path : String) : IO (Entry × List String) := do
  let mut children := []
  let mut links := []
  for e in ← (← IO.FS.realPath path).readDir do
    match (← e.path.symlinkMetadata).type with
    | .dir =>
      let (child, more) ← takeDirectory e.path.toString
      children := (e.fileName, child) :: children
      links := more ++ links
    | .symlink =>
      let target ← canonical e.path.toString
      children := (e.fileName, .link target) :: children
      links := target :: links
    | .file =>
      let matters := contentNames.contains e.fileName || (⟨e.fileName⟩ : Path).isSolidity
      let content ← if matters then readFile e.path.toString else pure (.file [])
      children := (e.fileName, content) :: children
    | _ => pure ()
  pure (.directory children, links)

/-- Adds files and directories, and all that links in them lead to. -/
partial def takeAll (t : FileTree) : List String → IO FileTree
  | [] => pure t
  | path :: more => do
    if path.isEmpty || holds t path then takeAll t more
    else
      if ← isDirectory path then
        let (e, links) ← takeDirectory path
        takeAll (put t path e) (links ++ more)
      else takeAll (put t path (← readFile path)) more

/-- Adds the files with rules in the directories around a directory. -/
def takeRules (t : FileTree) (path : String) : IO FileTree := do
  let mut t := t
  for location in IgnoreRules.around (locationOf path) do
    for file in IgnoreFile.all do
      let rules := ((FileTree.pathOf location).join file.path).text
      unless holds t rules do
        try t := put t rules (← readFile rules) catch _ => pure ()
  pure t

/-- Adds the directory of a file that the command may write, without what is in it. -/
def takeParent (t : FileTree) (path : String) : IO FileTree := do
  let parent ← parentOf path
  pure (if parent.isEmpty || holds t parent then t else put t parent (.directory []))

/-- The files that the command needs. -/
def takeFor (a : Arguments) (workingDirectory : String) : IO FileTree := do
  let empty : FileTree :=
    { root := .directory [], workingDirectory := locationOf workingDirectory }
  let target ← canonical a.target
  let around ← if ← isDirectory target then pure target else parentOf a.target
  let mut t ← takeAll empty [workingDirectory, around, ← canonical (a.root.getD ".")]
  if let some model := a.model then
    let model ← canonical model
    unless model.isEmpty || (← isDirectory model) do t := put t model (← readFile model)
  for path in a.exportModel.toList ++ a.report.toList do t ← takeParent t path
  takeRules t around

/-- Writes the file at `path` if the command has changed it. -/
def writeBack (before after : FileTree) (path : String) : IO Unit := do
  match before.read ⟨path⟩, after.read ⟨path⟩ with
  | old, .ok bytes =>
    if old.toOption ≠ some bytes then IO.FS.writeBinFile path ⟨bytes.toArray⟩
  | _, .error _ => pure ()

end TokenAudit.Disk

open TokenAudit in
def main (words : List String) : IO UInt32 := do
  let workingDirectory := (← IO.currentDir).toString
  let before ← match Arguments.read words with
    | .ok a => Disk.takeFor a workingDirectory
    | .error _ => pure { root := .directory [] }
  let done := Check.run before words
  IO.print done.output
  IO.eprint done.messages
  if let .ok a := Arguments.read words then
    for path in a.exportModel.toList ++ a.report.toList do
      Disk.writeBack before done.files path
  pure (UInt32.ofNat done.exitCode)
