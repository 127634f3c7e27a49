import TokenAudit.Files.Glob
import TokenAudit.Files.Tree
import TokenAudit.Text.Blank
import TokenAudit.Text.Lines
import TokenAudit.Text.Search

/-!
Rules on which files to leave out, one a line in files that any directory may have. Of the rules
in a file the last that matches decides; of the directories the innermost with a matching rule;
and of the kinds of file the first in the order of `IgnoreFile.all`.
-/

namespace TokenAudit

structure IgnoreRule where
  pattern : Glob
  /-- Keeps what it matches instead of leaving it out. -/
  keeps : Bool
  onlyDirectories : Bool

inductive Verdict
  | skip
  | keep
  deriving DecidableEq

/-- The files that hold rules, the strongest first. -/
inductive IgnoreFile
  | own
  | plain
  | tracked
  | excluded
  deriving DecidableEq

namespace IgnoreFile

def all : List IgnoreFile := [own, plain, tracked, excluded]

/-- The path of the file from the directory to which its rules belong. -/
def path : IgnoreFile → Path
  | own => ⟨".trexignore"⟩
  | plain => ⟨".ignore"⟩
  | tracked => ⟨".gitignore"⟩
  | excluded => ⟨".git/info/exclude"⟩

end IgnoreFile

namespace IgnoreRule

def startsWith (start text : List Char) : Bool := start.isPrefixOf text

/-- A pattern without a separator holds in all directories, and one that ends in `/**` means what
is inside, not the directory itself. -/
def completePattern (anchored : Bool) (pattern : List Char) : List Char :=
  let free := !anchored && !pattern.contains '/' && pattern != ['*', '*']
  let pattern := if free then "**/".toList ++ pattern else pattern
  if startsWith "**/".toList pattern.reverse then pattern ++ "/*".toList else pattern

/-- A slash at the end is no part of the pattern, nor is a backslash in front of it. -/
def cutDirectoryMark (pattern : List Char) : List Char × Bool :=
  match pattern.reverse with
  | '/' :: '\\' :: r => (r.reverse, true)
  | '/' :: r => (r.reverse, true)
  | _ => (pattern, false)

/-- Whether the rule keeps what it matches, whether it is bound to its directory, and the rest. -/
def readMarks (line : List Char) : Bool × Bool × List Char :=
  if startsWith ['\\', '!'] line || startsWith ['\\', '#'] line then (false, false, line.tail)
  else
    let keeps := startsWith ['!'] line
    let line := if keeps then line.tail else line
    let anchored := startsWith ['/'] line
    (keeps, anchored, if anchored then line.tail else line)

/-- The rule in a line. Comments, blank lines and lines whose pattern is none hold no rule. -/
def ofLine? (line : List Char) : Option IgnoreRule :=
  if startsWith ['#'] line then none
  else
    let line := if startsWith [' ', '\\'] line.reverse then line else Text.trimEnd line
    if line.isEmpty then none
    else
      let (keeps, anchored, rest) := readMarks line
      let (pattern, onlyDirectories) := cutDirectoryMark rest
      match Glob.read .mayOpenClass true (completePattern anchored pattern) with
      | .ok pattern => some { pattern, keeps, onlyDirectories }
      | .error _ => none

def verdict (r : IgnoreRule) : Verdict := if r.keeps then .keep else .skip

def applies (r : IgnoreRule) (path : List UInt8) (isDirectory : Bool) : Bool :=
  r.pattern.isMatch path && (isDirectory || !r.onlyDirectories)

/-- The text of a file up to the first line that is no text, without byte order marks in front. -/
def readableText (bytes : List UInt8) : List Char :=
  let decoded := Text.Utf8.decode bytes
  let text := (decoded.takeWhile Option.isSome).filterMap id
  let whole := if decoded.all Option.isSome then text
    else (text.reverse.dropWhile (· != '\n')).reverse
  whole.dropWhile (· == '\uFEFF')

/-- The rules in a file: none if their patterns do not make one matcher. -/
def ofFile (bytes : List UInt8) : List IgnoreRule :=
  let rules := (Text.lines (readableText bytes)).filterMap ofLine?
  if Glob.areBuildable (rules.map (·.pattern)) then rules else []

/-- What the last rule that applies says. -/
def lastVerdict? (rules : List IgnoreRule) (path : List UInt8) (isDirectory : Bool) :
    Option Verdict :=
  (rules.reverse.find? (·.applies path isDirectory)).map verdict

end IgnoreRule

/-- The rules of one directory, for each kind of file in the order of `IgnoreFile.all`. -/
structure IgnoreLevel where
  directory : List Char
  rules : List (List IgnoreRule)

/-- A leading `./` says nothing. -/
def dropHere (path : List Char) : List Char := (Text.dropPrefix? ['.', '/'] path).getD path

namespace IgnoreLevel

def ofDirectory (t : FileTree) (directory : Path) : IgnoreLevel :=
  { directory := dropHere directory.text.toList
    rules := IgnoreFile.all.map fun f =>
      match t.read (directory.join f.path) with
      | .ok bytes => IgnoreRule.ofFile bytes
      | .error _ => [] }

def isHere (directory : List Char) : Bool :=
  (⟨String.ofList directory⟩ : Path).components == [.here]

/-- `path` behind `directory`, as far as their texts agree. -/
def behind (directory path : List Char) : List Char :=
  let path := (Text.dropPrefix? directory path).getD path
  (Text.dropPrefix? ['/'] path).getD path

/-- A path as the rules of this level see it. -/
def localPath (l : IgnoreLevel) (path : List Char) : List Char :=
  let path := dropHere path
  if isHere l.directory || !path.contains '/' then path else behind l.directory path

/-- What the rules in the file at position `kind` say. -/
def verdict? (l : IgnoreLevel) (kind : Nat) (path : List Char) (isDirectory : Bool) :
    Option Verdict :=
  match l.rules[kind]? with
  | none | some [] => none
  | some rules => IgnoreRule.lastVerdict? rules (Text.toBytes (l.localPath path)) isDirectory

end IgnoreLevel

/-- The rules that hold in a directory below the target of a search, innermost level first: those
of the directories from the target on, and those of the directories around the target. -/
structure IgnoreRules where
  target : List Char
  /-- The target's absolute path, if it could be found. -/
  absoluteTarget : Option Path
  inner : List IgnoreLevel
  outer : List IgnoreLevel

namespace IgnoreRules

/-- All directories around a location, innermost first. -/
def around : List String → List (List String)
  | [] => []
  | name :: rest => (around rest).map (name :: ·) ++ [[]]

def ofTarget (t : FileTree) (target : Path) : IgnoreRules :=
  let location := (t.resolve target).toOption
  { target := dropHere target.text.toList
    absoluteTarget := location.map FileTree.pathOf
    inner := [IgnoreLevel.ofDirectory t target]
    outer := (around (location.getD [])).map fun l =>
      IgnoreLevel.ofDirectory t (FileTree.pathOf l) }

/-- The rules inside a directory in which these rules hold. -/
def enter (r : IgnoreRules) (t : FileTree) (directory : Path) : IgnoreRules :=
  { r with inner := IgnoreLevel.ofDirectory t directory :: r.inner }

/-- A path below the target as the directories around the target see it. -/
def absolutePath (r : IgnoreRules) (path : List Char) : List Char :=
  let below :=
    if IgnoreLevel.isHere r.target then path else IgnoreLevel.behind r.target path
  match r.absoluteTarget with
  | some p => (p.join ⟨String.ofList below⟩).text.toList
  | none => path

/-- What the rules say of a path below the target. -/
def verdict? (r : IgnoreRules) (path : Path) (isDirectory : Bool) : Option Verdict :=
  let inside := dropHere path.text.toList
  let outside := r.absolutePath inside
  (List.range IgnoreFile.all.length).findSome? fun kind =>
    r.inner.findSome? (·.verdict? kind inside isDirectory) <|>
      r.outer.findSome? (·.verdict? kind outside isDirectory)

end IgnoreRules

end TokenAudit
