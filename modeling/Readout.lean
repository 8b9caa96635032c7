import Readout.Arena.Basic
import Readout.Arena.Pipe
import Readout.Arena.Store
import Readout.Bits
import Readout.Bytes
import Readout.CommandLine
import Readout.ConditionBits
import Readout.Config.Basic
import Readout.Config.Build
import Readout.Config.Decode
import Readout.Config.Encode
import Readout.Config.File
import Readout.Config.Reference
import Readout.Decimal.Nearest
import Readout.Decimal.Shortest
import Readout.Document.Basic
import Readout.Document.Json
import Readout.Document.JsonNumber
import Readout.Document.JsonText
import Readout.Document.Toml
import Readout.Document.TomlScalar
import Readout.Document.TomlText
import Readout.Error
import Readout.Export.Format
import Readout.Export.Sink
import Readout.Export.Writer
import Readout.Export.Zlib
import Readout.Graph.Basic
import Readout.Graph.Handle
import Readout.Graph.Places
import Readout.Graph.Plan
import Readout.Graph.Run
import Readout.Histogram.Axis
import Readout.Histogram.File
import Readout.Histogram.Filler
import Readout.Histogram.Line
import Readout.Histogram.Plane
import Readout.Main
import Readout.Operator.Basic
import Readout.Operator.Equation
import Readout.Operator.Expression
import Readout.Operator.Make
import Readout.Operator.Reduction
import Readout.Operator.Step
import Readout.Pattern.Basic
import Readout.Pattern.Group
import Readout.Pattern.Packing
import Readout.Pattern.Report
import Readout.Polygon
import Readout.Proofs.Allocation
import Readout.Proofs.Arena.Contents
import Readout.Proofs.Arena.Follows
import Readout.Proofs.Arena.Generations
import Readout.Proofs.Arena.Ledger
import Readout.Proofs.Arena.Tied
import Readout.Proofs.Checked.Access
import Readout.Proofs.Checked.Bins
import Readout.Proofs.Checked.Operator
import Readout.Proofs.Checked.Range
import Readout.Proofs.Checked.Run
import Readout.Proofs.Checked.Source
import Readout.Proofs.ConditionWords
import Readout.Proofs.Config.Addresses
import Readout.Proofs.Config.Built
import Readout.Proofs.Config.Drafting
import Readout.Proofs.Config.Findings
import Readout.Proofs.Config.GateBits
import Readout.Proofs.Config.Growth
import Readout.Proofs.Config.History
import Readout.Proofs.Config.Mirror
import Readout.Proofs.Config.Rebuild
import Readout.Proofs.Config.References
import Readout.Proofs.Config.Reorder
import Readout.Proofs.Config.Resolution
import Readout.Proofs.Config.Stages
import Readout.Proofs.Export.Decoding
import Readout.Proofs.Export.Files
import Readout.Proofs.Export.Histograms
import Readout.Proofs.Export.Lifecycle
import Readout.Proofs.Export.Places
import Readout.Proofs.Expression.Declarations
import Readout.Proofs.Expression.Memory
import Readout.Proofs.Expression.Names
import Readout.Proofs.Expression.Outputs
import Readout.Proofs.Graph.Aftermath
import Readout.Proofs.Graph.BitRanges
import Readout.Proofs.Graph.Building
import Readout.Proofs.Graph.Chains
import Readout.Proofs.Graph.Conserved
import Readout.Proofs.Graph.Contained
import Readout.Proofs.Graph.Declared
import Readout.Proofs.Graph.Events
import Readout.Proofs.Graph.Extents
import Readout.Proofs.Graph.Feeding
import Readout.Proofs.Graph.Fixed
import Readout.Proofs.Graph.FlowRates
import Readout.Proofs.Graph.FreshRuns
import Readout.Proofs.Graph.Gating
import Readout.Proofs.Graph.Isolation
import Readout.Proofs.Graph.Lookback
import Readout.Proofs.Graph.Membership
import Readout.Proofs.Graph.Moments
import Readout.Proofs.Graph.Order
import Readout.Proofs.Graph.Places
import Readout.Proofs.Graph.Propagation
import Readout.Proofs.Graph.Ranks
import Readout.Proofs.Graph.Reorder
import Readout.Proofs.Graph.Runs
import Readout.Proofs.Graph.Separation
import Readout.Proofs.Graph.Strategy
import Readout.Proofs.Graph.Summaries
import Readout.Proofs.Graph.Ticks
import Readout.Proofs.Graph.Tied
import Readout.Proofs.Graph.Unwrapping
import Readout.Proofs.Graph.Workbench
import Readout.Proofs.Operator.Causes
import Readout.Proofs.Operator.Change
import Readout.Proofs.Operator.Course
import Readout.Proofs.Operator.Edges
import Readout.Proofs.Operator.Elementwise
import Readout.Proofs.Operator.Extent
import Readout.Proofs.Operator.Filling
import Readout.Proofs.Operator.Footprint
import Readout.Proofs.Operator.Layout
import Readout.Proofs.Operator.Phase
import Readout.Proofs.Operator.Planes
import Readout.Proofs.Operator.Recipe
import Readout.Proofs.Operator.Remade
import Readout.Proofs.Operator.Renewal
import Readout.Proofs.Operator.Response
import Readout.Proofs.Operator.Tied
import Readout.Proofs.Pattern.Arrival
import Readout.Proofs.Pattern.Fields
import Readout.Proofs.Pattern.Floating
import Readout.Proofs.Pattern.Gathering
import Readout.Proofs.Pattern.Packed
import Readout.Proofs.Pattern.Positions
import Readout.Proofs.Pattern.Slices
import Readout.Proofs.Pattern.Spelling
import Readout.Proofs.Polygon.Rectangles
import Readout.Proofs.Polygon.Tiling
import Readout.Proofs.Polygon.Walks
import Readout.Proofs.Rate.Sampling
import Readout.Proofs.Record.Reading
import Readout.Proofs.Record.Stream
import Readout.Proofs.Record.Trace
import Readout.Proofs.Source.Addresses
import Readout.Proofs.Source.Completions
import Readout.Proofs.Source.Events
import Readout.Proofs.Source.Feed
import Readout.Proofs.Source.HitTable
import Readout.Proofs.Source.Layout
import Readout.Proofs.Source.Limits
import Readout.Proofs.Source.Repetitions
import Readout.Proofs.Source.Restart
import Readout.Proofs.Source.SeveralHits
import Readout.Proofs.Source.Splitting
import Readout.Proofs.Source.Spread
import Readout.Proofs.Source.Storing
import Readout.Proofs.Source.Tallies
import Readout.Proofs.Store
import Readout.Proofs.Value.Differences
import Readout.Proofs.Value.Doubles
import Readout.Proofs.Value.Exact
import Readout.Proofs.Value.Order
import Readout.Proofs.Value.Printed
import Readout.Proofs.Value.Quantity
import Readout.Proofs.Value.Quotients
import Readout.Proofs.Value.Whole
import Readout.Rate.Monitor
import Readout.Rate.Sampler
import Readout.Record.Basic
import Readout.Record.Replay
import Readout.Scalar
import Readout.Script.Datum
import Readout.Script.Grammar
import Readout.Script.Run
import Readout.Script.Token
import Readout.Script.Tree
import Readout.Source.Basic
import Readout.Source.Decoder
import Readout.Source.Dither
import Readout.Text.Quoted
import Readout.Total
import Readout.Value.Basic
import Readout.Value.Text
import Readout.Volume.Basic
import Readout.Window
import Readout.Word
