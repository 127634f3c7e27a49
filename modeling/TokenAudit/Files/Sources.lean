import TokenAudit.Files.IgnoreRules

/-! The Solidity sources below a directory, less those that rules and patterns leave out. -/

namespace TokenAudit

namespace Sources

def isHidden (name : String) : Bool := name.toList.head? == some '.'

/-- A name that is not looked at, whatever it is. Rules can bring a hidden name back, but not the
directory of installed packages. -/
def isLeftOut (rules : IgnoreRules) (path : Path) (name : String) (isDirectory : Bool) : Bool :=
  name == "node_modules" ||
    match rules.verdict? path isDirectory with
    | some .skip => true
    | some .keep => false
    | none => isHidden name

mutual

/-- The sources at `path`, which is called `name`. Links are not followed. -/
def under (t : FileTree) (rules : IgnoreRules) (path : Path) (name : String) : Entry → List Path
  | .file _ => if path.isSolidity && !isLeftOut rules path name false then [path] else []
  | .directory children =>
    if isLeftOut rules path name true then []
    else amongChildren t (rules.enter t path) path children
  | .link _ => []

def amongChildren (t : FileTree) (rules : IgnoreRules) (directory : Path) :
    List (String × Entry) → List Path
  | [] => []
  | (name, e) :: more =>
    under t rules (directory.child name) name e ++ amongChildren t rules directory more

end

/-- A target that is taken for the standard input, even if it is the name of a directory. -/
def isStandardInput (target : Path) : Bool := target.components == [.name "-"]

/-- The sources below the target, which has these children. The standard input holds none. -/
def belowTarget (t : FileTree) (target : Path) (children : List (String × Entry)) : List Path :=
  if isStandardInput target then []
  else amongChildren t (IgnoreRules.ofTarget t target) target children

/-- The patterns among `patterns` that can be read. -/
def globs (patterns : List String) : List Glob :=
  patterns.filterMap fun p => (Glob.read .opensClass false p.toList).toOption

/-- Some pattern matches the path from `target` on. -/
def isExcluded (patterns : List Glob) (target path : Path) : Bool :=
  let shown := (target.stripPrefix? path).getD path
  patterns.any (·.isMatch (Text.toBytes shown.text.toList))

/-- The patterns that leave files out: those that can be read, or none if one matcher cannot be
built of them all. -/
def excluding (builds : List Glob → Bool) (patterns : List String) : List Glob :=
  if builds (globs patterns) then globs patterns else []

/-- All sources below `target` in the order of their paths, or the target itself if it is a
source. One matcher can be built of the patterns of which `builds` holds. -/
def findBy (builds : List Glob → Bool) (t : FileTree) (target : Path) (patterns : List String) :
    List Path :=
  match t.stat target with
  | .ok (.directory children) =>
    let found := belowTarget t target children
    (found.filter (!isExcluded (excluding builds patterns) target ·)).mergeSort Path.le
  | .ok (.file _) => if target.isSolidity then [target] else []
  | _ => []

def find (t : FileTree) (target : Path) (patterns : List String) : List Path :=
  findBy Glob.areBuildable t target patterns

end Sources

end TokenAudit
