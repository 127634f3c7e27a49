import TokenAudit.Report.Console
import TokenAudit.Text.Blank

/-! The report as a Markdown document. -/

namespace TokenAudit.Markdown

def inventory (contracts : List String) : String :=
  s!"## Contracts ({contracts.length})\n\n" ++
    String.join ((ascending contracts).map fun name => "- `" ++ name ++ "`\n")

/-- Drops as many list marks as stand at the start. -/
def dropMarks : List Char → List Char
  | '-' :: ' ' :: r => dropMarks r
  | r => r

/-- A further line of a message, as an item. -/
def item (line : List Char) : String :=
  "  - `" ++ String.ofList (dropMarks (Text.trimStart line)) ++ "`\n"

/-- The first line of a message, and an item for each further line. -/
def finding (f : Finding) : String :=
  let lines := Text.lines f.message.toList
  let headline := String.ofList (lines.headD [])
  s!"- **{f.severity.tag}** {headline}\n" ++ String.join (lines.tail.map item)

def rules : String := String.join (Rule.all.map fun r => s!"- **{r.code}**: {r.title}\n")

def part (title : String) (fs : List Finding) : String :=
  s!"\n## {title} ({fs.length})\n\n" ++
    if fs.isEmpty then "None.\n" else String.join (fs.map finding)

def report (r : Report) : String :=
  s!"# trexlint report\n\n**{Report.subject}: {r.verdict}**\n\n" ++
    "Target: `" ++ r.target ++ "`\n\n## Rules\n\n" ++ rules ++ "\n" ++ inventory r.contracts ++
    part "Failures" r.failures ++ part "Warnings (review manually)" r.warnings ++
    part "Downgraded to info" r.notes

end TokenAudit.Markdown
