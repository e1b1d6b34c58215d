import BurnLens.Cache
import BurnLens.Check.Declared
import BurnLens.Check.Delimiters
import BurnLens.Check.Lint
import BurnLens.Check.Usage
import BurnLens.Compiler.Check
import BurnLens.Compiler.Process
import BurnLens.Compiler.Snapshot
import BurnLens.Diagnostic
import BurnLens.File.Discovery
import BurnLens.File.HostAddress
import BurnLens.File.Path
import BurnLens.File.System
import BurnLens.File.Uri
import BurnLens.Fix
import BurnLens.Index.Basic
import BurnLens.Index.Load
import BurnLens.Lexeme
import BurnLens.LogLevel
import BurnLens.Number.Binary64
import BurnLens.OrderedMap
import BurnLens.Pattern
import BurnLens.Pipeline
import BurnLens.Proofs.Findings
import BurnLens.Proofs.Compiler.Validate
import BurnLens.Proofs.Report.Readable
import BurnLens.Proofs.Transparency
import BurnLens.Report.Notice
import BurnLens.Report.Parse
import BurnLens.Report.Widen
import BurnLens.Session
import BurnLens.Settings.EnvFile
import BurnLens.Settings.Load
import BurnLens.Settings.Value
import BurnLens.Symbol.Builtin
import BurnLens.Symbol.Extract
import BurnLens.Symbol.Import
import BurnLens.Symbol.Inference
import BurnLens.Symbol.Table
import BurnLens.Text.Char
import BurnLens.Text.Cut
import BurnLens.Text.Digest
import BurnLens.Text.Digit
import BurnLens.Text.Document
import BurnLens.Text.Printable
import BurnLens.Text.Quoted
import BurnLens.Text.Scan
import BurnLens.Text.Utf8
import BurnLens.Text.Word
import BurnLens.Proofs.Session.History
import BurnLens.Proofs.Session.Sequential
import BurnLens.Proofs.Session.Workbench
import BurnLens.Proofs.Session.Order
import BurnLens.Proofs.Session.Reopen
import BurnLens.Proofs.Index.Consistent
import BurnLens.Proofs.File.Place
import BurnLens.Proofs.Index.Closure
import BurnLens.Proofs.Index.Returns
import BurnLens.Proofs.Session.Failure
import BurnLens.Proofs.Session.Resume
import BurnLens.Proofs.Index.Population
import BurnLens.Proofs.Index.Walk
import BurnLens.Proofs.Index.Listing
import BurnLens.Proofs.Index.Reindex
import BurnLens.Proofs.Gate
import BurnLens.Proofs.Index.Again
import BurnLens.Proofs.Check.NonCode
import BurnLens.Proofs.Symbol.Found
import BurnLens.Proofs.Symbol.Parts
import BurnLens.Proofs.Symbol.Recovery
import BurnLens.Proofs.Text.Passes
import BurnLens.Proofs.Check.Declaration
import BurnLens.Proofs.Check.Reported
import BurnLens.Proofs.Symbol.Agreement
import BurnLens.Proofs.Text.Position
import BurnLens.Proofs.Check.Ahead
import BurnLens.Proofs.Check.Use
import BurnLens.Proofs.Fix.Site
import BurnLens.Proofs.Fix.Alike
import BurnLens.Proofs.Fix.Resolve
import BurnLens.Proofs.Fix.Moved
import BurnLens.Proofs.Fix.Safety
import BurnLens.Proofs.Text.Occurs
import BurnLens.Proofs.Text.Run
import BurnLens.Proofs.Report.Lines
import BurnLens.Proofs.Report.Silence
import BurnLens.Proofs.Report.Numeral
import BurnLens.Proofs.Report.Opening
import BurnLens.Proofs.Report.Message
import BurnLens.Proofs.Report.Rendered
import BurnLens.Proofs.Report.Decode
import BurnLens.Proofs.Session.Scan
import BurnLens.Proofs.Cache.History
import BurnLens.Proofs.Cache.Recency
import BurnLens.Proofs.Check.Matching
import BurnLens.Proofs.Lexeme.Resume
import BurnLens.Proofs.Check.Contents
import BurnLens.Proofs.Index.Visible
import BurnLens.Proofs.Index.Definition
import BurnLens.Proofs.Check.Undeclared
import BurnLens.Proofs.Text.Maximal
import BurnLens.Proofs.Report.Token
import BurnLens.Proofs.Report.Levelled
import BurnLens.Proofs.Report.WellFormed
import BurnLens.Proofs.Symbol.Imported
import BurnLens.Proofs.Check.Property
import BurnLens.Proofs.File.RoundTrip
import BurnLens.Proofs.Text.Overlap
import BurnLens.Proofs.Symbol.Block
import BurnLens.Proofs.Symbol.Header
import BurnLens.Proofs.Symbol.Method
import BurnLens.Proofs.Symbol.Literal
import BurnLens.Proofs.Text.Coordinate
import BurnLens.Proofs.Session.Cursor
import BurnLens.Proofs.Symbol.Piece
import BurnLens.Proofs.Symbol.Entry
import BurnLens.Proofs.File.Tree
import BurnLens.Proofs.File.Discovery
