import Readout.Config.Basic
import Readout.Document.Basic

/-!
# Configurations as documents

Every field is written, defaults included; what is not given is null. The fields of a source or
an operator stand beside its `type`.
-/
namespace Readout

namespace Document

def ofOption {α : Type} (f : α → Document) : Option α → Document
  | none => null
  | some a => f a

def ofPair (p : Value × Value) : Document := list [number p.1, number p.2]

def ofTexts (ss : List String) : Document := list (ss.map text)

end Document

open Document (Fields)

namespace SourceSpec

def fields : SourceSpec → Fields
  | group patterns required =>
    [("type", .text "extractor"), ("filters", .ofTexts patterns),
      ("required_completions", .natural required)]
  | packed patterns wordCount wide reversed repetitions =>
    [("type", .text "list_filter"), ("filters", .ofTexts patterns),
      ("word_count", .natural wordCount), ("word_size_32", .bool wide),
      ("reverse_combine", .bool reversed), ("repetitions", .natural repetitions)]
  | word pattern shape maxHits =>
    [("type", .text "multi_hit"), ("filter", .text pattern),
      ("shape", .text (Names.wordFor Names.shapes shape)), ("max_hits", .natural maxHits)]

end SourceSpec

def SourceConfig.document (s : SourceConfig) : Document :=
  .table ([("name", .text s.name), ("module", .natural s.moduleIndex),
    ("seed", .ofOption (fun x => .natural x.toNat) s.seed), ("no_added_random", .bool s.plain),
    ("repetition_low_address_bits", .bool s.lowRepetition)] ++ s.spec.fields)

def Mapping.document (m : Mapping) : Document :=
  .table [("input_index", .natural m.input), ("param_index", .natural m.element)]

def InputConfig.document (i : InputConfig) : Document :=
  .table [("input", .text i.input), ("name", .ofOption .text i.name), ("unit", .text i.unit)]

namespace OperatorSpec

def fields : OperatorSpec → Fields
  | calibration input unitMin unitMax perElement =>
    [("type", .text "calibration"), ("input", .text input), ("unit_min", .number unitMin),
      ("unit_max", .number unitMax), ("per_element", .list (perElement.map .ofPair))]
  | keepPrevious input keepValid =>
    [("type", .text "keep_previous"), ("input", .text input), ("keep_valid", .bool keepValid)]
  | difference a b => [("type", .text "difference"), ("a", .text a), ("b", .text b)]
  | arrayMap inputs mappings =>
    [("type", .text "array_map"), ("inputs", .ofTexts inputs),
      ("mappings", .list (mappings.map Mapping.document))]
  | equation a b e outputMin outputMax =>
    [("type", .text "binary_equation"), ("a", .text a), ("b", .text b), ("equation", .text e.name),
      ("output_min", .number outputMin), ("output_max", .number outputMax)]
  | aggregate input r min max =>
    [("type", .text "aggregate"), ("input", .text input), ("op", .text r.name),
      ("min", .ofOption .number min), ("max", .ofOption .number max)]
  | rangeFilter input min max inverted =>
    [("type", .text "range_filter"), ("input", .text input), ("min", .number min),
      ("max", .number max), ("invert", .bool inverted)]
  | rectangleFilter x y xRange yRange junction =>
    [("type", .text "rect_filter"), ("x", .text x), ("y", .text y), ("x_range", .ofPair xRange),
      ("y_range", .ofPair yRange), ("op", .text (Names.wordFor Names.junctions junction))]
  | conditionFilter data condition inverted =>
    [("type", .text "condition_filter"), ("data", .text data), ("condition", .text condition),
      ("inverted", .bool inverted)]
  | scalerOverflow input => [("type", .text "scaler_overflow"), ("input", .text input)]
  | expression inputs beginScript stepScript =>
    [("type", .text "expression"), ("inputs", .list (inputs.map InputConfig.document)),
      ("begin", .text beginScript), ("step", .text stepScript)]
  | histograms input bins range =>
    [("type", .text "h1d"), ("input", .text input), ("bins", .natural bins),
      ("range", .ofOption .ofPair range)]
  | planeHistogram x y xBins yBins xRange yRange =>
    [("type", .text "h2d"), ("x", .text x), ("y", .text y), ("x_bins", .natural xBins),
      ("y_bins", .natural yBins), ("x_range", .ofOption .ofPair xRange),
      ("y_range", .ofOption .ofPair yRange)]
  | rateMonitor input mode scale offset history =>
    [("type", .text "rate_monitor"), ("input", .text input),
      ("mode", .text (Names.wordFor Names.modes mode)), ("scale", .number scale),
      ("offset", .number offset), ("history", .natural history)]
  | exportSink inputs condition path format level =>
    [("type", .text "export_sink"), ("inputs", .ofTexts inputs),
      ("condition", .ofOption .text condition), ("path", .text path),
      ("format", .text (Names.wordFor Names.formats format)), ("compression_level", .integer level)]
  | intervalCondition input intervals =>
    [("type", .text "interval_condition"), ("input", .text input),
      ("intervals", .list (intervals.map .ofPair))]
  | rectangleCondition x y xRange yRange =>
    [("type", .text "rectangle_condition"), ("x", .text x), ("y", .text y),
      ("x_range", .ofPair xRange), ("y_range", .ofPair yRange)]
  | polygonCondition x y polygon =>
    [("type", .text "polygon_condition"), ("x", .text x), ("y", .text y),
      ("polygon", .list (polygon.map .ofPair))]

end OperatorSpec

def OperatorConfig.document (o : OperatorConfig) : Document :=
  .table ([("name", .text o.name), ("gate", .ofOption .text o.gate)] ++ o.spec.fields)

def EventConfig.document (e : EventConfig) : Document :=
  .table [("index", .natural e.index), ("sources", .list (e.sources.map SourceConfig.document)),
    ("operators", .list (e.operators.map OperatorConfig.document))]

def Config.document (c : Config) : Document :=
  .table [("arena_capacity", .natural c.arenaCapacity),
    ("fill_strategy", .text (Names.wordFor Names.strategies c.strategy)),
    ("rng_seed", .ofOption (fun x => .natural x.toNat) c.seed),
    ("events", .list (c.events.map EventConfig.document))]

end Readout
