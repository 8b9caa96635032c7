import Readout.Arena.Pipe
import Readout.Export.Sink
import Readout.Histogram.Line
import Readout.Histogram.Plane
import Readout.Operator.Equation
import Readout.Operator.Expression
import Readout.Operator.Reduction
import Readout.Rate.Monitor
import Readout.Window

/-!
# Operators

An operator is a node of the graph. It reads pipes, writes pipes of its own or condition bits, or
keeps what it reads in histograms, rates and files. A gated operator runs only in events in which
its condition bit is set. The kinds of operators form a closed catalogue.
-/
namespace Readout

/-- The element of an input that an element of a map is taken from. -/
structure Mapping where
  input : Nat
  element : Nat
deriving DecidableEq

inductive Junction
  | both
  | either
deriving DecidableEq

inductive Kind
  | calibration (factors : Span)
  | keepPrevious (previous : Span) (keepValid : Bool)
  | difference
  | arrayMap (mappings : List Mapping)
  | equation (e : Equation)
  | aggregate (r : Reduction) (window : Window Value)
  | rangeFilter (window : Window Value) (inverted : Bool)
  | rectangleFilter (x y : Window Value) (junction : Junction)
  | conditionFilter (inverted : Bool)
  | scalerOverflow (last overflows : Span)
  | expression (e : Expression)
  | histograms (hs : List Histogram)
  | planeHistogram (h : PlaneHistogram)
  | rateMonitor (m : RateMonitor)
  | exportSink (s : ExportSink)
  | intervalCondition (intervals : List (Window Value)) (firstBit : Nat)
  | rectangleCondition (x y : Window Value) (bit : Nat)
  | polygonCondition (polygon : List (Value × Value)) (bit : Nat)

structure Operator where
  inputs : List Pipe
  outputs : List Pipe
  /-- The condition bit that lets the operator run. -/
  gate : Option Nat
  kind : Kind

namespace Kind

def name : Kind → String
  | calibration _ => "calibration"
  | keepPrevious .. => "keep_previous"
  | difference => "difference"
  | arrayMap _ => "array_map"
  | equation _ => "binary_equation"
  | aggregate r _ => "aggregate_" ++ (r.name.replace "_" "")
  | rangeFilter .. => "range_filter"
  | rectangleFilter .. => "rect_filter"
  | conditionFilter _ => "condition_filter"
  | scalerOverflow .. => "scaler_overflow"
  | expression _ => "expression"
  | histograms _ => "h1d_sink"
  | planeHistogram _ => "h2d_sink"
  | rateMonitor _ => "rate_monitor"
  | exportSink _ => "export_sink"
  | intervalCondition .. => "interval_condition"
  | rectangleCondition .. => "rectangle_condition"
  | polygonCondition .. => "polygon_condition"

def bitCount : Kind → Nat
  | intervalCondition intervals _ => intervals.length
  | rectangleCondition .. | polygonCondition .. => 1
  | _ => 0

def firstBit? : Kind → Option Nat
  | intervalCondition _ bit | rectangleCondition _ _ bit | polygonCondition _ bit => some bit
  | _ => none

/-- A condition without elements has no bits and stays as it is. -/
def withFirstBit (k : Kind) (bit : Nat) : Kind :=
  match k with
  | intervalCondition intervals first =>
    intervalCondition intervals (if intervals.isEmpty then first else bit)
  | rectangleCondition x y _ => rectangleCondition x y bit
  | polygonCondition polygon _ => polygonCondition polygon bit
  | k => k

/-- Most bins that an operator can increment in one event. -/
def maxFills : Kind → Nat
  | histograms hs => hs.length
  | planeHistogram _ => 1
  | _ => 0

end Kind

namespace Operator

def isCondition (op : Operator) : Bool := 0 < op.kind.bitCount

def withGate (op : Operator) (bit : Nat) : Operator := { op with gate := some bit }

end Operator

end Readout
