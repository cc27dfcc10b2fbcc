import DesignTokens.Asset
import DesignTokens.Brand
import DesignTokens.Brand.Log
import DesignTokens.Brand.Workspace
import DesignTokens.ButtonStyle
import DesignTokens.Bytes
import DesignTokens.Bytes.Base64
import DesignTokens.Bytes.Checksum
import DesignTokens.Check.Arguments
import DesignTokens.Check.Report
import DesignTokens.Check.Run
import DesignTokens.Color
import DesignTokens.Datum
import DesignTokens.Deflate.Bits
import DesignTokens.Deflate.Block
import DesignTokens.Deflate.PrefixCode
import DesignTokens.Deflate.Stream
import DesignTokens.Document.Basic
import DesignTokens.Document.Decode
import DesignTokens.Document.Dump
import DesignTokens.Document.Entry
import DesignTokens.Document.Load
import DesignTokens.Document.LoadError
import DesignTokens.Document.Problem
import DesignTokens.Document.Record
import DesignTokens.Document.Scalar
import DesignTokens.Fault
import DesignTokens.Files
import DesignTokens.Font.Catalog
import DesignTokens.Font.Descriptor
import DesignTokens.Font.FontFile
import DesignTokens.Font.Scan
import DesignTokens.Geometry
import DesignTokens.Image
import DesignTokens.Image.Background
import DesignTokens.Image.Png
import DesignTokens.Image.Png.Chunk
import DesignTokens.Image.Png.Heading
import DesignTokens.Image.Png.Rows
import DesignTokens.Json.Display
import DesignTokens.Json.KeyPath
import DesignTokens.Json.Reader
import DesignTokens.Json.Value
import DesignTokens.Json.Writer
import DesignTokens.Kind
import DesignTokens.LogLevel
import DesignTokens.Main
import DesignTokens.Mapping
import DesignTokens.Notice
import DesignTokens.Number.Double
import DesignTokens.Number.Integer
import DesignTokens.Number.Layout
import DesignTokens.Number.Literal
import DesignTokens.Number.Shortest
import DesignTokens.Parameters
import DesignTokens.Path
import DesignTokens.Proofs.Brand.Aborted
import DesignTokens.Proofs.Brand.Calls
import DesignTokens.Proofs.Brand.Fallback
import DesignTokens.Proofs.Brand.Journal
import DesignTokens.Proofs.Brand.Logs
import DesignTokens.Proofs.Brand.Reload
import DesignTokens.Proofs.ButtonStyle.Valid
import DesignTokens.Proofs.Check.Report
import DesignTokens.Proofs.Color.Components
import DesignTokens.Proofs.Color.Meaning
import DesignTokens.Proofs.Color.Range
import DesignTokens.Proofs.Color.Valid
import DesignTokens.Proofs.Color.Web
import DesignTokens.Proofs.Document.Formats
import DesignTokens.Proofs.Document.Names
import DesignTokens.Proofs.Document.Outline
import DesignTokens.Proofs.Document.Records
import DesignTokens.Proofs.Document.RoundTrip
import DesignTokens.Proofs.Document.Sharing
import DesignTokens.Proofs.Files.Writing
import DesignTokens.Proofs.Font.Layers
import DesignTokens.Proofs.Font.Nearest
import DesignTokens.Proofs.Font.Opaque
import DesignTokens.Proofs.Font.Places
import DesignTokens.Proofs.Font.Requests
import DesignTokens.Proofs.Font.Substitutes
import DesignTokens.Proofs.Font.Versions
import DesignTokens.Proofs.Image.Caps
import DesignTokens.Proofs.Image.Nearest
import DesignTokens.Proofs.Image.Painting
import DesignTokens.Proofs.Json.KeyPath
import DesignTokens.Proofs.Json.Legible
import DesignTokens.Proofs.Json.Walk
import DesignTokens.Proofs.Json.Writing
import DesignTokens.Proofs.Metric.Answers
import DesignTokens.Proofs.Metric.Evaluation
import DesignTokens.Proofs.Metric.Finiteness
import DesignTokens.Proofs.Metric.Grammar
import DesignTokens.Proofs.Metric.Inlining
import DesignTokens.Proofs.Metric.Readers
import DesignTokens.Proofs.Metric.Scan
import DesignTokens.Proofs.Metric.Takes
import DesignTokens.Proofs.Number.Literal
import DesignTokens.Proofs.Number.Magnitude
import DesignTokens.Proofs.Number.Overflow
import DesignTokens.Proofs.Number.Range
import DesignTokens.Proofs.Number.Rounding
import DesignTokens.Proofs.Number.Spelling
import DesignTokens.Proofs.Number.Value
import DesignTokens.Proofs.Parameters.Answers
import DesignTokens.Proofs.Parameters.Redirection
import DesignTokens.Proofs.Parameters.Scope
import DesignTokens.Proofs.Resolution.Account
import DesignTokens.Proofs.Resolution.Alias
import DesignTokens.Proofs.Resolution.Asking
import DesignTokens.Proofs.Resolution.Calls
import DesignTokens.Proofs.Resolution.ColorScale
import DesignTokens.Proofs.Resolution.Completeness
import DesignTokens.Proofs.Resolution.Consulted
import DesignTokens.Proofs.Resolution.Cycle
import DesignTokens.Proofs.Resolution.Ending
import DesignTokens.Proofs.Resolution.Exact
import DesignTokens.Proofs.Resolution.Failure
import DesignTokens.Proofs.Resolution.Foundation
import DesignTokens.Proofs.Resolution.Hazard
import DesignTokens.Proofs.Resolution.Inquiry
import DesignTokens.Proofs.Resolution.Ledger
import DesignTokens.Proofs.Resolution.Literals
import DesignTokens.Proofs.Resolution.Meaning
import DesignTokens.Proofs.Resolution.Mirror
import DesignTokens.Proofs.Resolution.Moments
import DesignTokens.Proofs.Resolution.Once
import DesignTokens.Proofs.Resolution.Order
import DesignTokens.Proofs.Resolution.Outcome
import DesignTokens.Proofs.Resolution.Past
import DesignTokens.Proofs.Resolution.Plan
import DesignTokens.Proofs.Resolution.Probe
import DesignTokens.Proofs.Resolution.Protocol
import DesignTokens.Proofs.Resolution.Raising
import DesignTokens.Proofs.Resolution.Recorded
import DesignTokens.Proofs.Resolution.Request
import DesignTokens.Proofs.Resolution.Retry
import DesignTokens.Proofs.Resolution.Sentinel
import DesignTokens.Proofs.Resolution.Tally
import DesignTokens.Proofs.Resolution.Uses
import DesignTokens.Proofs.Resolution.Warning
import DesignTokens.Proofs.TextAttributes.Kern
import DesignTokens.Proofs.TextAttributes.Nearest
import DesignTokens.Resolution.ButtonStyle
import DesignTokens.Resolution.Cell
import DesignTokens.Resolution.Color
import DesignTokens.Resolution.Document
import DesignTokens.Resolution.Font
import DesignTokens.Resolution.Image
import DesignTokens.Resolution.Metric
import DesignTokens.Resolution.Session
import DesignTokens.Resolution.Store
import DesignTokens.Resolution.TextAttributes
import DesignTokens.Settings
import DesignTokens.Settings.EnvFile
import DesignTokens.Settings.Options
import DesignTokens.Settings.Sources
import DesignTokens.Text.Blank
import DesignTokens.Text.Digit
import DesignTokens.Text.Half
import DesignTokens.Text.Padded
import DesignTokens.Text.Printable
import DesignTokens.Text.Quoted
import DesignTokens.Text.SmallLetter
import DesignTokens.TextAttributes
import DesignTokens.Timestamp
import DesignTokens.Yaml.Cursor
import DesignTokens.Yaml.Error
import DesignTokens.Yaml.Merge
import DesignTokens.Yaml.Node
import DesignTokens.Yaml.Scalar
import DesignTokens.Yaml.Tag
import DesignTokens.Yaml.Token
import DesignTokens.Yaml.TokenStream
import DesignTokens.Yaml.Value
