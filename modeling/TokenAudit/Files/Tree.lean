import TokenAudit.Files.Path
import TokenAudit.Text.Utf8

/-!
A tree of files, directories and symbolic links as a value, with the ways a running program reads
and changes it.
-/

namespace TokenAudit

inductive Entry
  | file (bytes : List UInt8)
  | directory (children : List (String × Entry))
  | link (target : String)

/-- Why a file could not be used. -/
inductive FileError
  | notFound
  | notDirectory
  | isDirectory
  | nameTooLong
  | tooManyLinks
  | nulInPath
  | notText
  deriving DecidableEq

namespace FileError

def message : FileError → String
  | notFound => "No such file or directory (os error 2)"
  | notDirectory => "Not a directory (os error 20)"
  | isDirectory => "Is a directory (os error 21)"
  | nameTooLong => "File name too long (os error 36)"
  | tooManyLinks => "Too many levels of symbolic links (os error 40)"
  | nulInPath => "file name contained an unexpected NUL byte"
  | notText => "stream did not contain valid UTF-8"

end FileError

namespace Entry

def isDirectory : Entry → Bool
  | directory _ => true
  | _ => false

def isFile : Entry → Bool
  | file _ => true
  | _ => false

def children : Entry → List (String × Entry)
  | directory cs => cs
  | _ => []

/-- The entry at a location below this one; links are not followed. -/
def at? (e : Entry) : List String → Option Entry
  | [] => some e
  | name :: rest =>
    match e.children.lookup name with
    | some child => child.at? rest
    | none => none

mutual

/-- The locations of all files, behind `location`. -/
def files (location : List String) : Entry → List (List String)
  | file _ => [location]
  | directory children => filesAmong location children
  | link _ => []

def filesAmong (location : List String) : List (String × Entry) → List (List String)
  | [] => []
  | (name, e) :: more => files (location ++ [name]) e ++ filesAmong location more

end

/-- A child added, or put in the place of the one with its name. -/
def setChild (name : String) (e : Entry) : List (String × Entry) → List (String × Entry)
  | [] => [(name, e)]
  | (n, old) :: more => if n = name then (n, e) :: more else (n, old) :: setChild name e more

/-- The tree with `new` at a location, directories on the way made where nothing is. -/
def insert (new : Entry) : List String → Entry → Entry
  | [], _ => new
  | name :: rest, e =>
    let old := (e.children.lookup name).getD (.directory [])
    .directory (setChild name (insert new rest old) e.children)

end Entry

/-- All files, and the directory in which relative paths start. Locations are lists of names from
the root, and no part of one is a link. -/
structure FileTree where
  root : Entry
  workingDirectory : List String := []

/-- The location that a path leads to, and whether anything is there; if not, it is a name that
its directory does not have. -/
structure Place where
  location : List String
  present : Bool

namespace FileTree

def entry? (t : FileTree) (location : List String) : Option Entry := t.root.at? location

/-- The longest name of a file, in bytes. -/
def maxName : Nat := 255

/-- Paths of this many bytes are refused. -/
def maxPath : Nat := 4096

/-- How many links one path may lead through. -/
def maxLinks : Nat := 40

/-- Follows the names of a path from the directory at `location`. -/
def follow (t : FileTree) (links : Nat) (location : List String) (names : List String) :
    Except FileError Place :=
  match names with
  | [] => .ok ⟨location, true⟩
  | name :: rest =>
    if name = "" ∨ name = "." then follow t links location rest
    else if name = ".." then follow t links location.dropLast rest
    else if maxName < name.utf8ByteSize then .error .nameTooLong
    else
      let next := location ++ [name]
      match t.entry? next with
      | none => if rest.isEmpty then .ok ⟨next, false⟩ else .error .notFound
      | some (.directory _) => follow t links next rest
      | some (.file _) => if rest.isEmpty then .ok ⟨next, true⟩ else .error .notDirectory
      | some (.link target) =>
        match links with
        | 0 => .error .tooManyLinks
        | links + 1 =>
          if target.isEmpty then .error .notFound
          else
            let start := if (⟨target⟩ : Path).isAbsolute then [] else location
            follow t links start ((Path.parts target.toList).map String.ofList ++ rest)
termination_by (links, names.length)

/-- Follows a path as far as its last name, which need not exist. -/
def locate (t : FileTree) (p : Path) : Except FileError Place :=
  if p.text.toList.contains '\x00' then .error .nulInPath
  else if p.text.isEmpty then .error .notFound
  else if maxPath ≤ p.text.utf8ByteSize then .error .nameTooLong
  else
    let start := if p.isAbsolute then [] else t.workingDirectory
    t.follow maxLinks start ((Path.parts p.text.toList).map String.ofList)

/-- The location of the file or directory that a path leads to. -/
def resolve (t : FileTree) (p : Path) : Except FileError (List String) := do
  let place ← t.locate p
  if place.present then pure place.location else throw .notFound

def pathOf (location : List String) : Path := ⟨"/" ++ "/".intercalate location⟩

/-- The paths of all files, without links. -/
def files (t : FileTree) : List Path := (t.root.files []).map pathOf

/-- The absolute path without links to the same file or directory. -/
def canonicalize (t : FileTree) (p : Path) : Except FileError Path := pathOf <$> t.resolve p

/-- The file or directory that a path leads to. -/
def stat (t : FileTree) (p : Path) : Except FileError Entry := do
  match t.entry? (← t.resolve p) with
  | some e => pure e
  | none => throw .notFound

def isFile (t : FileTree) (p : Path) : Bool :=
  match t.stat p with
  | .ok e => e.isFile
  | .error _ => false

def isDirectory (t : FileTree) (p : Path) : Bool :=
  match t.stat p with
  | .ok e => e.isDirectory
  | .error _ => false

def read (t : FileTree) (p : Path) : Except FileError (List UInt8) := do
  match ← t.stat p with
  | .file bytes => pure bytes
  | _ => throw .isDirectory

def readText (t : FileTree) (p : Path) : Except FileError (List Char) := do
  match Text.ofBytes? (← t.read p) with
  | some text => pure text
  | none => throw .notText

/-- The part of a path in front of its last name, if separators follow that name. -/
def beforeTrailing? (p : Path) : Option Path :=
  match p.text.toList.reverse with
  | '/' :: r =>
    let back := r.dropWhile (· == '/')
    if back.isEmpty then none else some ⟨String.ofList (back.dropWhile (· != '/')).reverse⟩
  | _ => none

/-- The tree with a file of the given bytes where the path leads. -/
def write (t : FileTree) (p : Path) (bytes : List UInt8) : Except FileError FileTree := do
  match beforeTrailing? p with
  | some front =>
    unless front.text.isEmpty do discard (t.stat front)
    throw .isDirectory
  | none =>
    let place ← t.locate p
    match t.entry? place.location with
    | some (.directory _) => throw .isDirectory
    | _ => pure { t with root := Entry.insert (.file bytes) place.location t.root }

end FileTree

end TokenAudit
