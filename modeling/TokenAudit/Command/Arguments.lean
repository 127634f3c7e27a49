import TokenAudit.Rule.Audit

/-! The arguments of the command line. Options may stand before and after the target, each at
most once, and after `--` nothing is an option. -/

namespace TokenAudit

/-- Options with a value. -/
inductive ValueOption
  | root
  | model
  | exportModel
  | report
  deriving DecidableEq

namespace ValueOption

def all : List ValueOption := [root, model, exportModel, report]

def name : ValueOption → String
  | root => "root"
  | model => "model"
  | exportModel => "export-model"
  | report => "report"

/-- The option with its value, as messages show it. -/
def usage (o : ValueOption) : String :=
  s!"--{o.name} " ++ if o = root then "<DIR>" else "<FILE>"

end ValueOption

/-- Options without a value. -/
inductive Switch
  | json
  | verbose
  | help
  | version
  deriving DecidableEq

namespace Switch

def all : List Switch := [json, verbose, help, version]

def name : Switch → String
  | json => "json"
  | verbose => "verbose"
  | help => "help"
  | version => "version"

def letter? : Switch → Option Char
  | json => none
  | verbose => some 'v'
  | help => some 'h'
  | version => some 'V'

def usage (s : Switch) : String := "--" ++ s.name

end Switch

/-- What a command line asks for when it asks for a check. -/
structure Arguments where
  target : String := "."
  root : Option String := none
  model : Option String := none
  exportModel : Option String := none
  report : Option String := none
  json : Bool := false
  verbose : Bool := false
  deriving DecidableEq

/-- Why a command line asks for no check. -/
inductive ArgumentStop
  | help
  | version
  | unexpected (argument : String)
  | missingValue (usage : String)
  | repeated (usage : String)
  | unexpectedValue (value usage : String)
  deriving DecidableEq

namespace ArgumentStop

def helpLines : List String :=
  ["ERC-3643 (T-REX) static checks for Solidity projects",
    "",
    "Usage: trexlint [OPTIONS] [TARGET]",
    "",
    "Arguments:",
    "  [TARGET]  Project directory or single .sol file [default: .]",
    "",
    "Options:",
    "      --root <DIR>           Project root for package imports, tx.origin scan roots and " ++
      "trexlint.json (default: the target directory)",
    "      --model <FILE>         Read a contract model snapshot instead of parsing sources",
    "      --export-model <FILE>  Write the loaded contract model as a snapshot",
    "      --json                 Output the run report as structured JSON",
    "      --report <FILE>        Also write a Markdown summary to FILE",
    "  -v, --verbose              Debug-level diagnostics on stderr",
    "  -h, --help                 Print help",
    "  -V, --version              Print version"]

def message : ArgumentStop → String
  | help => String.join (helpLines.map (· ++ "\n"))
  | version => s!"trexlint {programVersion}\n"
  | unexpected a => "error: unexpected argument '" ++ a ++ "' found\n"
  | missingValue o => "error: a value is required for '" ++ o ++ "' but none was supplied\n"
  | repeated o => "error: the argument '" ++ o ++ "' cannot be used multiple times\n"
  | unexpectedValue v o =>
    "error: unexpected value '" ++ v ++ "' for '" ++ o ++ "' found; no more were expected\n"

/-- Help and version are answers, not errors. -/
def isAnswer : ArgumentStop → Bool
  | help | version => true
  | _ => false

def exitCode (s : ArgumentStop) : Nat := if s.isAnswer then 0 else 2

end ArgumentStop

namespace Arguments

/-- An argument that has been read but not yet accepted. -/
inductive Pending
  | option (o : ValueOption) (value : Option String)
  | target (value : String)

/-- The arguments accepted so far. A value is accepted only when the next argument is not a
fault of its own. -/
structure Reading where
  target : Option String := none
  values : List (ValueOption × String) := []
  switches : List Switch := []
  pending : Option Pending := none
  /-- A target has been read. -/
  hasTarget : Bool := false
  /-- `--` has been read. -/
  onlyTargets : Bool := false

namespace Reading

def acceptValue (r : Reading) (o : ValueOption) (v : String) : Except ArgumentStop Reading :=
  if (r.values.lookup o).isSome then .error (.repeated o.usage)
  else if v.isEmpty then .error (.missingValue o.usage)
  else .ok { r with values := r.values ++ [(o, v)], pending := none }

def accept (r : Reading) : Except ArgumentStop Reading :=
  match r.pending with
  | none => .ok r
  | some (.option o none) => .error (.missingValue o.usage)
  | some (.option o (some v)) => r.acceptValue o v
  | some (.target v) =>
    if v.isEmpty then .error (.missingValue "[TARGET]")
    else .ok { r with target := some v, pending := none }

def readSwitch (r : Reading) (s : Switch) : Except ArgumentStop Reading := do
  let r ← r.accept
  match s with
  | .help => throw .help
  | .version => throw .version
  | _ =>
    if s ∈ r.switches then throw (.repeated s.usage)
    pure { r with switches := s :: r.switches }

/-- Reads `--name` or `--name=value`, without its dashes. -/
def readLong (r : Reading) (text : List Char) : Except ArgumentStop Reading :=
  let name := String.ofList (text.takeWhile (· != '='))
  let value? := (text.dropWhile (· != '=')).tail? |>.map String.ofList
  match Switch.all.find? (·.name == name), ValueOption.all.find? (·.name == name) with
  | some s, _ =>
    match value? with
    | some v => .error (.unexpectedValue v s.usage)
    | none => r.readSwitch s
  | none, some o => do
    let r ← r.accept
    match value? with
    | some v => r.acceptValue o v
    | none => pure { r with pending := some (.option o none) }
  | none, none => .error (.unexpected ("--" ++ name))

/-- Reads the letters of switches written together. -/
def readLetters (r : Reading) : List Char → Except ArgumentStop Reading
  | [] => .ok r
  | c :: more =>
    match Switch.all.find? (·.letter? == some c) with
    | some s => do (← r.readSwitch s).readLetters more
    | none => .error (.unexpected (String.ofList ['-', c]))

def readTarget (r : Reading) (text : String) : Except ArgumentStop Reading :=
  if r.hasTarget then .error (.unexpected text)
  else do
    let r ← r.accept
    pure { r with pending := some (.target text), hasTarget := true }

/-- Reads a value or a target. -/
def readPlain (r : Reading) (text : String) : Except ArgumentStop Reading :=
  match r.pending with
  | some (.option o none) => .ok { r with pending := some (.option o (some text)) }
  | _ => r.readTarget text

def next (r : Reading) (text : String) : Except ArgumentStop Reading :=
  if r.onlyTargets then r.readTarget text
  else
    match text.toList with
    | ['-', '-'] => .ok { r with onlyTargets := true }
    | '-' :: '-' :: rest => r.readLong rest
    | ['-'] => r.readPlain text
    | '-' :: letters => r.readLetters letters
    | _ => r.readPlain text

def arguments (r : Reading) : Arguments :=
  { target := r.target.getD "."
    root := r.values.lookup .root
    model := r.values.lookup .model
    exportModel := r.values.lookup .exportModel
    report := r.values.lookup .report
    json := r.switches.contains .json
    verbose := r.switches.contains .verbose }

end Reading

def read (words : List String) : Except ArgumentStop Arguments := do
  let r ← words.foldlM Reading.next {}
  pure (← r.accept).arguments

end Arguments

end TokenAudit
