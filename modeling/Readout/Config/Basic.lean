import Readout.Export.Format
import Readout.Operator.Basic
import Readout.Source.Decoder
import Readout.Total

/-!
# Configurations

A configuration describes the nodes of each event by name. Operators refer to pipes and condition
bits by references, texts that are resolved when the analysis is built. Alternatives are chosen by
words (`Names`).
-/
namespace Readout

inductive SourceSpec
  | group (patterns : List String) (required : Nat)
  | packed (patterns : List String) (wordCount : Nat) (wide reversed : Bool) (repetitions : Nat)
  | word (pattern : String) (shape : Shape) (maxHits : Nat)
deriving DecidableEq

structure SourceConfig where
  name : String
  moduleIndex : Nat
  seed : Option UInt64
  plain : Bool
  lowRepetition : Bool
  spec : SourceSpec
deriving DecidableEq

/-- An input of an expression. Its name in scripts is that of the node it refers to, unless
another one is given. -/
structure InputConfig where
  input : String
  name : Option String
  unit : String
deriving DecidableEq

abbrev Limits := Value × Value

inductive OperatorSpec
  | calibration (input : String) (unitMin unitMax : Value) (perElement : List Limits)
  | keepPrevious (input : String) (keepValid : Bool)
  | difference (a b : String)
  | arrayMap (inputs : List String) (mappings : List Mapping)
  | equation (a b : String) (e : Equation) (outputMin outputMax : Value)
  | aggregate (input : String) (r : Reduction) (min max : Option Value)
  | rangeFilter (input : String) (min max : Value) (inverted : Bool)
  | rectangleFilter (x y : String) (xRange yRange : Limits) (junction : Junction)
  | conditionFilter (data condition : String) (inverted : Bool)
  | scalerOverflow (input : String)
  | expression (inputs : List InputConfig) (beginScript stepScript : String)
  | histograms (input : String) (bins : Nat) (range : Option Limits)
  | planeHistogram (x y : String) (xBins yBins : Nat) (xRange yRange : Option Limits)
  | rateMonitor (input : String) (mode : RateMode) (scale offset : Value) (history : Nat)
  | exportSink (inputs : List String) (condition : Option String) (path : String)
      (format : ExportFormat) (level : Int)
  | intervalCondition (input : String) (intervals : List Limits)
  | rectangleCondition (x y : String) (xRange yRange : Limits)
  | polygonCondition (x y : String) (polygon : List Limits)
deriving DecidableEq

structure OperatorConfig where
  name : String
  gate : Option String
  spec : OperatorSpec
deriving DecidableEq

structure EventConfig where
  index : Nat
  sources : List SourceConfig
  operators : List OperatorConfig
deriving DecidableEq

structure Config where
  arenaCapacity : Nat
  strategy : FillStrategy
  seed : Option UInt64
  events : List EventConfig
deriving DecidableEq

namespace Config

def defaultBins : Nat := 1024

def standard : Config := ⟨Arena.defaultCapacity, .direct, none, []⟩

def nodeCount (c : Config) : Nat :=
  total (c.events.map fun e => e.sources.length + e.operators.length)

end Config

namespace OperatorSpec

/-- The references to pipes, in the order in which they are given. -/
def inputs : OperatorSpec → List String
  | calibration input .. | keepPrevious input _ | aggregate input .. | rangeFilter input ..
  | scalerOverflow input | histograms input .. | rateMonitor input .. | intervalCondition input _ =>
    [input]
  | difference a b | equation a b .. => [a, b]
  | rectangleFilter x y .. | planeHistogram x y .. | rectangleCondition x y ..
  | polygonCondition x y _ => [x, y]
  | conditionFilter data condition _ => [data, condition]
  | arrayMap inputs _ => inputs
  | expression inputs .. => inputs.map InputConfig.input
  | exportSink inputs condition .. => inputs ++ condition.toList

def path? : OperatorSpec → Option String
  | exportSink _ _ path _ _ => some path
  | _ => none

end OperatorSpec

/-- Everything an operator refers to, its gate last. -/
def OperatorConfig.references (o : OperatorConfig) : List String :=
  o.spec.inputs ++ o.gate.toList

def Config.paths (c : Config) : List String :=
  c.events.flatMap fun e => e.operators.filterMap fun o => o.spec.path?

namespace Names

def strategies : List (String × FillStrategy) := [("direct", .direct), ("batched", .batched)]

def shapes : List (String × Shape) :=
  [("array_per_hit", .perHit), ("array_per_address", .perAddress)]

def equations : List (String × Equation) := Equation.table.map fun e => (e.name, e)

def reductions : List (String × Reduction) := Reduction.all.map fun r => (r.name, r)

def junctions : List (String × Junction) := [("and", .both), ("or", .either)]

def modes : List (String × RateMode) :=
  [("precalculated_rate", .precalculated), ("counter_difference", .counter), ("flow_rate", .flow)]

def formats : List (String × ExportFormat) := [("full", .full), ("sparse", .sparse), ("csv", .csv)]

def wordFor {α : Type} [DecidableEq α] (table : List (String × α)) (a : α) : String :=
  match table.find? fun e => e.2 = a with
  | some e => e.1
  | none => ""

def sourceTypes : List String := ["extractor", "list_filter", "multi_hit"]

def operatorTypes : List String :=
  ["calibration", "keep_previous", "difference", "array_map", "binary_equation", "aggregate",
    "range_filter", "rect_filter", "condition_filter", "scaler_overflow", "expression", "h1d",
    "h2d", "rate_monitor", "export_sink", "interval_condition", "rectangle_condition",
    "polygon_condition"]

end Names

end Readout
