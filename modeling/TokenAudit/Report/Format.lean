import TokenAudit.Json.Printer
import TokenAudit.Report.Markdown

/-! The formats of a report. A report as JSON comes in one part, after all findings. -/

namespace TokenAudit

inductive ReportFormat
  | console
  | json
  | markdown
  deriving DecidableEq

namespace ReportFormat

def inventory (contracts : List String) : ReportFormat → String
  | console => Console.inventory contracts
  | json => ""
  | markdown => Markdown.inventory contracts

def finding (f : Finding) : ReportFormat → String
  | console => Console.finding f
  | json => ""
  | markdown => Markdown.finding f

def report (r : Report) : ReportFormat → String
  | console => Console.report r
  | json => r.encode.print
  | markdown => Markdown.report r

end ReportFormat

end TokenAudit
