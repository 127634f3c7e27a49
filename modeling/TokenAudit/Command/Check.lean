import TokenAudit.Command.Arguments
import TokenAudit.Project.Load
import TokenAudit.Report.Format

/-! The command: from the files and the arguments to the output, the messages and the files
afterwards. -/

namespace TokenAudit

/-- What a run of the command leaves behind. -/
structure Outcome where
  exitCode : Nat
  output : String := ""
  messages : String := ""
  files : FileTree

namespace Check

/-- The target if it is a directory, else the directory that holds it. -/
def defaultRoot (t : FileTree) (target : Path) : Path :=
  if t.isDirectory target then target
  else
    match target.parent? with
    | some p => if p.text.isEmpty then ⟨"."⟩ else p
    | none => ⟨"."⟩

def rootOf (t : FileTree) (a : Arguments) : Path :=
  match a.root with
  | some r => ⟨r⟩
  | none => defaultRoot t ⟨a.target⟩

def loadModel (t : FileTree) (a : Arguments) (root : Path) (s : Settings) :
    Except LoadError Snapshot :=
  match a.model with
  | some path => Snapshot.load t ⟨path⟩
  | none => Project.load t { target := ⟨a.target⟩, root, ignorePatterns := s.ignorePatterns }

def formatOf (a : Arguments) : ReportFormat := if a.json then .json else .console

/-- A text with a line feed at its end, unless it is empty. -/
def endLine (text : String) : String :=
  if text.isEmpty || text.toList.getLast? == some '\n' then text else text ++ "\n"

/-- All that is printed on the way to the report. -/
def output (f : ReportFormat) (findings : List Finding) (r : Report) : String :=
  endLine (f.inventory r.contracts) ++ String.join (findings.map fun x => endLine (f.finding x)) ++
    endLine (f.report r)

/-- The audit of a model, reported under the name of the target. -/
def audit (t : FileTree) (a : Arguments) (root : Path) (s : Settings) (model : Snapshot) : Audit :=
  let audit := Audit.run t root s model.contracts
  { audit with report := { audit.report with target := a.target } }

/-- The files with the report in one of them, and a message if it could not be written. -/
def writeReport (t : FileTree) (r : Report) (path : String) : FileTree × String :=
  match t.write ⟨path⟩ (Text.toBytes (Markdown.report r).toList) with
  | .ok t => (t, "")
  | .error e => (t, s!"trexlint: failed to write report {path}: {e.message}\n")

/-- The audit of a loaded model, with the model exported first if that is asked for. -/
def checkModel (t : FileTree) (a : Arguments) (root : Path) (s : Settings) (model : Snapshot) :
    Outcome :=
  let exported := match a.exportModel with
    | some path => model.save t ⟨path⟩
    | none => .ok t
  match exported with
  | .error e =>
    { exitCode := 2, messages := s!"trexlint: failed to export model: {e.message}\n", files := t }
  | .ok t =>
    let done := audit t a root s model
    let (files, messages) := match a.report with
      | some path => writeReport t done.report path
      | none => (t, "")
    { exitCode := done.report.exitCode
      output := output (formatOf a) done.findings done.report
      messages, files }

def check (t : FileTree) (a : Arguments) : Outcome :=
  let root := rootOf t a
  let s := Settings.load t root
  match loadModel t a root s with
  | .error e =>
    { exitCode := 2
      messages := s!"trexlint: failed to load contract model: {e.message}\n"
      files := t }
  | .ok model => checkModel t a root s model

/-- Runs the command with the given words after its name. -/
def run (t : FileTree) (words : List String) : Outcome :=
  match Arguments.read words with
  | .error stop =>
    { exitCode := stop.exitCode
      output := if stop.isAnswer then stop.message else ""
      messages := if stop.isAnswer then "" else stop.message
      files := t }
  | .ok a => check t a

end Check

end TokenAudit
