import TokenAudit.Command.Arguments
import TokenAudit.Command.Check
import TokenAudit.Contract.Basic
import TokenAudit.Contract.CallGraph
import TokenAudit.Contract.Declaration
import TokenAudit.Contract.Encoding
import TokenAudit.Contract.Snapshot
import TokenAudit.Decimal.Shortest
import TokenAudit.Files.Glob
import TokenAudit.Files.IgnoreRules
import TokenAudit.Files.Path
import TokenAudit.Files.Sources
import TokenAudit.Files.Tree
import TokenAudit.Graph.Preorder
import TokenAudit.Graph.Rounds
import TokenAudit.Hierarchy.Basic
import TokenAudit.Hierarchy.Linearize
import TokenAudit.Hierarchy.Merge
import TokenAudit.Json.Basic
import TokenAudit.Json.Decode
import TokenAudit.Json.Number
import TokenAudit.Json.Printer
import TokenAudit.Json.Reader
import TokenAudit.Json.Text
import TokenAudit.Main
import TokenAudit.Project.Import
import TokenAudit.Project.Load
import TokenAudit.Project.Remapping
import TokenAudit.Project.Settings
import TokenAudit.Project.Source
import TokenAudit.Proofs.Command.ExitCode
import TokenAudit.Proofs.Command.Output
import TokenAudit.Proofs.Contract.Ancestry
import TokenAudit.Proofs.Contract.Binding
import TokenAudit.Proofs.Contract.CallData
import TokenAudit.Proofs.Contract.CallGraph
import TokenAudit.Proofs.Contract.Encoding
import TokenAudit.Proofs.Contract.LoadOrder
import TokenAudit.Proofs.Contract.Modifiers
import TokenAudit.Proofs.Contract.OwnName
import TokenAudit.Proofs.Contract.Snapshot
import TokenAudit.Proofs.Files.Display
import TokenAudit.Proofs.Files.Exclusion
import TokenAudit.Proofs.Files.IgnoreRules
import TokenAudit.Proofs.Files.Locations
import TokenAudit.Proofs.Files.Nesting
import TokenAudit.Proofs.Files.Path
import TokenAudit.Proofs.Files.PathOrder
import TokenAudit.Proofs.Files.Relative
import TokenAudit.Proofs.Files.Sources
import TokenAudit.Proofs.Files.Tree
import TokenAudit.Proofs.Files.Walk
import TokenAudit.Proofs.Files.Write
import TokenAudit.Proofs.Graph.Preorder
import TokenAudit.Proofs.Graph.Reachable
import TokenAudit.Proofs.Graph.Rounds
import TokenAudit.Proofs.Hierarchy.Addition
import TokenAudit.Proofs.Hierarchy.Climb
import TokenAudit.Proofs.Hierarchy.Completion
import TokenAudit.Proofs.Hierarchy.Continuation
import TokenAudit.Proofs.Hierarchy.Cycle
import TokenAudit.Proofs.Hierarchy.Imports
import TokenAudit.Proofs.Hierarchy.Lineage
import TokenAudit.Proofs.Hierarchy.LoadOrder
import TokenAudit.Proofs.Hierarchy.Merge
import TokenAudit.Proofs.Hierarchy.Preference
import TokenAudit.Proofs.Hierarchy.Resolution
import TokenAudit.Proofs.Json.Decode
import TokenAudit.Proofs.Json.Number
import TokenAudit.Proofs.Json.RoundTrip
import TokenAudit.Proofs.Json.Text
import TokenAudit.Proofs.Lists
import TokenAudit.Proofs.Positions
import TokenAudit.Proofs.Project.Closure
import TokenAudit.Proofs.Project.LoadOrder
import TokenAudit.Proofs.Project.Reading
import TokenAudit.Proofs.Project.Remapping
import TokenAudit.Proofs.Report.Encoding
import TokenAudit.Proofs.Report.Markdown
import TokenAudit.Proofs.Rule.AdminTables
import TokenAudit.Proofs.Rule.AllowList
import TokenAudit.Proofs.Rule.Audit
import TokenAudit.Proofs.Rule.CallData
import TokenAudit.Proofs.Rule.KnownWarnings
import TokenAudit.Proofs.Rule.LoadOrder
import TokenAudit.Proofs.Rule.NameExpression
import TokenAudit.Proofs.Rule.NamePattern
import TokenAudit.Proofs.Rule.OriginUse
import TokenAudit.Proofs.Rule.ScanRoots
import TokenAudit.Proofs.Rule.TransferApproval
import TokenAudit.Proofs.Solidity.Calls
import TokenAudit.Proofs.Sorting
import TokenAudit.Proofs.Text.Expression
import TokenAudit.Proofs.Text.Lines
import TokenAudit.Proofs.Text.Search
import TokenAudit.Proofs.Text.Utf8
import TokenAudit.Proofs.Text.Utf8RoundTrip
import TokenAudit.Report.Basic
import TokenAudit.Report.Console
import TokenAudit.Report.Format
import TokenAudit.Report.Markdown
import TokenAudit.Rule.AdminAccess
import TokenAudit.Rule.AllowList
import TokenAudit.Rule.Audit
import TokenAudit.Rule.Finding
import TokenAudit.Rule.Issue
import TokenAudit.Rule.Ledger
import TokenAudit.Rule.NamePattern
import TokenAudit.Rule.OriginUse
import TokenAudit.Rule.OwnerSetup
import TokenAudit.Rule.TransferApproval
import TokenAudit.Solidity.Name
import TokenAudit.Solidity.Nest
import TokenAudit.Solidity.Outline
import TokenAudit.Solidity.Phrase
import TokenAudit.Solidity.Token
import TokenAudit.Text.Blank
import TokenAudit.Text.CaseTable
import TokenAudit.Text.Lines
import TokenAudit.Text.Lowercase
import TokenAudit.Text.Quoted
import TokenAudit.Text.Row
import TokenAudit.Text.Search
import TokenAudit.Text.Utf8
import TokenAudit.Proofs.Solidity.Name
import TokenAudit.Proofs.Hierarchy.Recursion
import TokenAudit.Contract.NumberedGraph
import TokenAudit.Proofs.Contract.Counts
import TokenAudit.Proofs.Contract.NumberedGraph
import TokenAudit.Proofs.Files.Spelling
import TokenAudit.Proofs.Rule.ShownHits
