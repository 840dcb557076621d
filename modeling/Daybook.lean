import Daybook.Calendar.Date
import Daybook.Calendar.DateTime
import Daybook.Calendar.Text
import Daybook.CommandLine.Address
import Daybook.CommandLine.Arguments
import Daybook.CommandLine.Config
import Daybook.CommandLine.FileTree
import Daybook.CommandLine.Host
import Daybook.CommandLine.Keeping
import Daybook.CommandLine.Literal
import Daybook.CommandLine.Location
import Daybook.CommandLine.Option
import Daybook.CommandLine.Path
import Daybook.CommandLine.Program
import Daybook.Duration
import Daybook.Event
import Daybook.Event.Assembly
import Daybook.Event.Printer
import Daybook.Import
import Daybook.Import.Notice
import Daybook.Import.Outcome
import Daybook.Json
import Daybook.Line.Lexer
import Daybook.Line.Token
import Daybook.Log
import Daybook.Main
import Daybook.Problem
import Daybook.Proofs.Calendar.Range
import Daybook.Proofs.Calendar.Text
import Daybook.Proofs.Distinct
import Daybook.Proofs.Duration
import Daybook.Proofs.Duration.Canonical
import Daybook.Proofs.Duration.Spelling
import Daybook.Proofs.Duration.Value
import Daybook.Proofs.Event.Accounts
import Daybook.Proofs.Event.Canonical
import Daybook.Proofs.Event.Fields
import Daybook.Proofs.Event.Soundness
import Daybook.Proofs.Event.Steps
import Daybook.Proofs.Event.Timestamp
import Daybook.Proofs.Import.Again
import Daybook.Proofs.Import.Carried
import Daybook.Proofs.Import.Checked
import Daybook.Proofs.Import.Chronology
import Daybook.Proofs.Import.Conflicts
import Daybook.Proofs.Import.Direction
import Daybook.Proofs.Import.DryRun
import Daybook.Proofs.Import.Effect
import Daybook.Proofs.Import.Independent
import Daybook.Proofs.Import.LostLinks
import Daybook.Proofs.Import.Origin
import Daybook.Proofs.Import.Overlap
import Daybook.Proofs.Import.Refusal
import Daybook.Proofs.Import.Runs
import Daybook.Proofs.Line.Annotations
import Daybook.Proofs.Line.Columns
import Daybook.Proofs.Line.Form
import Daybook.Proofs.Line.Grammar
import Daybook.Proofs.Line.Mark
import Daybook.Proofs.Line.Notes
import Daybook.Proofs.Line.Offences
import Daybook.Proofs.Line.Tokens
import Daybook.Proofs.Log.Dates
import Daybook.Proofs.Log.Lines
import Daybook.Proofs.Log.Reading
import Daybook.Proofs.Log.RoundTrip
import Daybook.Proofs.Log.Tags
import Daybook.Proofs.Result
import Daybook.Proofs.Store.Admission
import Daybook.Proofs.Store.Batch
import Daybook.Proofs.Store.Block
import Daybook.Proofs.Store.Cascade
import Daybook.Proofs.Store.Chain
import Daybook.Proofs.Store.ChainEnd
import Daybook.Proofs.Store.Conflicts
import Daybook.Proofs.Store.Counting
import Daybook.Proofs.Store.Integrity
import Daybook.Proofs.Store.Latest
import Daybook.Proofs.Store.Moments
import Daybook.Proofs.Store.Operations
import Daybook.Proofs.Store.Overlap
import Daybook.Proofs.Store.Paused
import Daybook.Proofs.Store.Questions
import Daybook.Proofs.Store.Reading
import Daybook.Proofs.Store.Removal
import Daybook.Proofs.Store.Renumbering
import Daybook.Proofs.Store.Rows
import Daybook.Proofs.Store.Settled
import Daybook.Proofs.Store.TagTable
import Daybook.Proofs.Store.Tags
import Daybook.Proofs.Text.Digits
import Daybook.Proofs.Text.Layout
import Daybook.Proofs.Text.LineEnds
import Daybook.Proofs.Text.Places
import Daybook.Proofs.Text.Words
import Daybook.Proofs.Timeline.Bounds
import Daybook.Proofs.Timeline.Indentation
import Daybook.Proofs.Timeline.Interruptions
import Daybook.Proofs.Timeline.Links
import Daybook.Proofs.Timeline.Nesting
import Daybook.Proofs.Timeline.Overlap
import Daybook.Proofs.Timeline.Passes
import Daybook.Proofs.Timeline.Resume
import Daybook.Proofs.Timeline.Scope
import Daybook.Proofs.Timeline.Settled
import Daybook.Proofs.Timeline.Spans
import Daybook.Report.Check
import Daybook.Report.Fields
import Daybook.Report.Interval
import Daybook.Report.Status
import Daybook.Session.Basic
import Daybook.Session.Id
import Daybook.Session.State
import Daybook.Store.Basic
import Daybook.Store.Batch
import Daybook.Store.File
import Daybook.Store.Query
import Daybook.Text.Blank
import Daybook.Text.Decimal
import Daybook.Text.Numeral
import Daybook.Text.Split
import Daybook.Timeline
import Daybook.Timeline.Nesting
import Daybook.Timeline.Overlap
import Daybook.Timeline.Resume
import Daybook.Timeline.Scope
import Daybook.Timeline.Span
import Daybook.Toml.Document
import Daybook.Toml.Quoted
import Daybook.Toml.Scalar
import Daybook.Toml.Tables
