import LintBridge.CommandLine.Arguments
import LintBridge.CommandLine.Program
import LintBridge.Data.Checked
import LintBridge.Data.Coerce
import LintBridge.Data.Json
import LintBridge.Data.Toml
import LintBridge.Data.Toml.Scalar
import LintBridge.Data.Toml.Table
import LintBridge.Data.Value
import LintBridge.Diagnostic
import LintBridge.Document.Buffer
import LintBridge.Document.Content
import LintBridge.Document.Edits
import LintBridge.Failure
import LintBridge.Main
import LintBridge.Number.Binary64
import LintBridge.Number.DecimalText
import LintBridge.Number.Rounding
import LintBridge.Path.Basic
import LintBridge.Path.Canonical
import LintBridge.Path.Discovery
import LintBridge.Path.Disk
import LintBridge.Path.FileMap
import LintBridge.Range
import LintBridge.Record.Fixing
import LintBridge.Record.Shown
import LintBridge.Report
import LintBridge.Report.Finding
import LintBridge.Report.Grouping
import LintBridge.Report.Output
import LintBridge.Report.Violation
import LintBridge.Session.Basic
import LintBridge.Session.Event
import LintBridge.Session.FileFix
import LintBridge.Session.Inquiry
import LintBridge.Session.Lint
import LintBridge.Session.Negotiation
import LintBridge.Session.QuickFixes
import LintBridge.Session.Run
import LintBridge.Session.Schedule
import LintBridge.Session.Sweep
import LintBridge.Settings.Basic
import LintBridge.Settings.Layers
import LintBridge.Severity
import LintBridge.Store
import LintBridge.Terminal
import LintBridge.Terminal.Line
import LintBridge.Terminal.Log
import LintBridge.Text.Blank
import LintBridge.Text.Columns
import LintBridge.Text.Digit
import LintBridge.Text.Letter
import LintBridge.Text.Printable
import LintBridge.Text.Quoted
import LintBridge.Text.Utf8
import LintBridge.Tool.Command
import LintBridge.Tool.Run
import LintBridge.Tool.Version
import LintBridge.Proofs.Canonical
import LintBridge.Proofs.Requests
import LintBridge.Proofs.Exclusion
import LintBridge.Proofs.Atomicity
import LintBridge.Proofs.Records
import LintBridge.Proofs.Sweeping
import LintBridge.Proofs.Agreement
import LintBridge.Proofs.Matching
import LintBridge.Proofs.Partition
import LintBridge.Proofs.RoundTrip
import LintBridge.Proofs.Skipping
import LintBridge.Proofs.Invocation
import LintBridge.Proofs.Reading
import LintBridge.Proofs.Containment
import LintBridge.Proofs.Conformity
import LintBridge.Proofs.Lines
import LintBridge.Proofs.Splicing
import LintBridge.Proofs.Replacing
import LintBridge.Proofs.Documents
import LintBridge.Proofs.DocumentFix
import LintBridge.Proofs.Carrying
import LintBridge.Proofs.NormalForm
import LintBridge.Proofs.Verdicts
import LintBridge.Proofs.ExitStatus
import LintBridge.Proofs.Versions
import LintBridge.Proofs.Rearranging
import LintBridge.Proofs.QuickFixes
import LintBridge.Proofs.Irrelevance
import LintBridge.Proofs.Loops
import LintBridge.Proofs.Detection
import LintBridge.Proofs.Relisting
import LintBridge.Proofs.Aliases
import LintBridge.Proofs.Slices
import LintBridge.Proofs.Encoding
import LintBridge.Proofs.Processes
import LintBridge.Proofs.TomlReading
import LintBridge.Proofs.SettingsFiles
import LintBridge.Proofs.EachSetting
import LintBridge.Proofs.Layering
import LintBridge.Proofs.LineIndex
import LintBridge.Proofs.Touching
