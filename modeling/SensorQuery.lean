import SensorQuery.CommandLine
import SensorQuery.Function.Catalog
import SensorQuery.Function.Signature
import SensorQuery.Function.Standard
import SensorQuery.Inspection
import SensorQuery.Literal
import SensorQuery.LogFilter.Directive
import SensorQuery.LogFilter.Pattern
import SensorQuery.LogFilter.Pattern.Class
import SensorQuery.LogFilter.Pattern.Mode
import SensorQuery.Model.Builder
import SensorQuery.Model.EntityType
import SensorQuery.Model.Key
import SensorQuery.Model.Registry
import SensorQuery.Model.Sensing
import SensorQuery.Model.Uuid
import SensorQuery.Model.ValueType
import SensorQuery.Number.Binary64
import SensorQuery.Number.Numeral
import SensorQuery.Number.Shortest
import SensorQuery.Path.Element
import SensorQuery.Path.Resolve
import SensorQuery.Path.Segment
import SensorQuery.Query.Constant
import SensorQuery.Query.Context
import SensorQuery.Query.Error
import SensorQuery.Query.Expression
import SensorQuery.Query.Grammar
import SensorQuery.Query.Options
import SensorQuery.Query.PropertyPath
import SensorQuery.Query.Query
import SensorQuery.Query.Validation
import SensorQuery.Request
import SensorQuery.Scan
import SensorQuery.Settings
import SensorQuery.Text.Blank
import SensorQuery.Text.Form
import SensorQuery.Text.Hex
import SensorQuery.Text.Letter
import SensorQuery.Text.Quoted
import SensorQuery.Text.Split
import SensorQuery.Text.Utf8
import SensorQuery.Time.Clock
import SensorQuery.Time.Date
import SensorQuery.Time.Duration
import SensorQuery.Time.Instant
import SensorQuery.Time.Interval
import SensorQuery.Toml.Document
import SensorQuery.Toml.Scalar
import SensorQuery.Toml.Value
import SensorQuery.Main
import SensorQuery.Proofs.Scanner
import SensorQuery.Proofs.Number.Numeral
import SensorQuery.Proofs.Number.Rounding
import SensorQuery.Proofs.Number.Shortest
import SensorQuery.Proofs.Time.Instant
import SensorQuery.Proofs.Time.Interval
import SensorQuery.Proofs.Query.Word
import SensorQuery.Proofs.Query.Spelling
import SensorQuery.Proofs.Query.Literal
import SensorQuery.Proofs.Query.PropertyPath
import SensorQuery.Proofs.Query.Formed
import SensorQuery.Proofs.Query.Levels
import SensorQuery.Proofs.Query.Operand
import SensorQuery.Proofs.Query.Expression
import SensorQuery.Proofs.Query.RoundTrip
import SensorQuery.Proofs.Fallible
import SensorQuery.Proofs.Model.Key
import SensorQuery.Proofs.Path.RoundTrip
import SensorQuery.Proofs.Query.Hops
import SensorQuery.Proofs.Query.Nested
import SensorQuery.Proofs.Query.Depth
import SensorQuery.Proofs.Query.Restored
import SensorQuery.Proofs.Model.Names
import SensorQuery.Proofs.Path.Addressed
import SensorQuery.Proofs.Path.Compress
import SensorQuery.Proofs.Path.Conforms
import SensorQuery.Proofs.Path.Selected
import SensorQuery.Proofs.Query.Encoded
import SensorQuery.Proofs.Query.WellFormed
import SensorQuery.Proofs.Model.Coherent
import SensorQuery.Proofs.Query.Validation
import SensorQuery.Proofs.Query.Steady
import SensorQuery.Proofs.Query.Apart
import SensorQuery.Proofs.Query.Standing
import SensorQuery.Proofs.Query.OperatorTree
import SensorQuery.Proofs.Query.Precedence
import SensorQuery.Proofs.Model.Assembled
import SensorQuery.Proofs.Model.Within
import SensorQuery.Proofs.Model.Rearranged
import SensorQuery.Proofs.Model.Held
import SensorQuery.Proofs.Path.Extended
import SensorQuery.Proofs.Path.Keyed
import SensorQuery.Proofs.Query.Parts
import SensorQuery.Proofs.Query.Settled
import SensorQuery.Proofs.Query.Replay
import SensorQuery.Proofs.Query.Extended
import SensorQuery.Proofs.Query.Expanded
import SensorQuery.Proofs.Query.SingleHop
import SensorQuery.Proofs.Query.Scopes
import SensorQuery.Proofs.Query.Chained
import SensorQuery.Proofs.Query.Arranged
import SensorQuery.Proofs.Number.Range
import SensorQuery.Proofs.Time.Duration
import SensorQuery.Proofs.Time.Calendar
import SensorQuery.Proofs.Time.Shift
import SensorQuery.Proofs.Time.Bounds
import SensorQuery.Proofs.Model.Extensions
import SensorQuery.Proofs.Path.Slashed
import SensorQuery.Proofs.Query.OperandKinds
import SensorQuery.Proofs.Path.Spelled
import SensorQuery.Proofs.Alike
import SensorQuery.Proofs.Function.Grown
import SensorQuery.Proofs.Query.Catalogs
import SensorQuery.Proofs.Query.TopLevel
import SensorQuery.Proofs.Model.Declared
import SensorQuery.Proofs.Query.Quotation
import SensorQuery.Proofs.Settings
import SensorQuery.Proofs.Url
import SensorQuery.Proofs.Query.Selection
import SensorQuery.Proofs.Function.Registered
