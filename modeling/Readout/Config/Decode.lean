import Readout.Config.Basic
import Readout.Document.Basic
import Readout.Word

/-!
# Configurations from documents

A structure is a table of fields, or a list of them in their order. A known field is given at most
once and unknown ones are passed over; missing fields have defaults where there is a sensible one.
Sources and operators are tables whose `type` selects the fields that belong to them; it may also
be the number of the type. Whole numbers have to fit the width of their field, and a field for
doubles takes whole numbers too.
-/
namespace Readout

namespace Document

def field? (fields : Fields) (name : String) : Option (Option Document) :=
  match fields.filter fun f => f.1 = name with
  | [] => some none
  | [f] => some (some f.2)
  | _ => none

section Fields

variable {α : Type}

def required (read : Document → Option α) (fields : Fields) (name : String) : Option α := do
  read (← (← field? fields name))

def given (default : α) (read : Document → Option α) (fields : Fields) (name : String) :
    Option α := do
  match ← field? fields name with
  | none => return default
  | some d => read d

def orNull (read : Document → Option α) : Document → Option (Option α)
  | null => some none
  | d => (read d).map some

def optional (read : Document → Option α) (fields : Fields) (name : String) : Option (Option α) :=
  given none (orNull read) fields name

def listOf (read : Document → Option α) : Document → Option (List α)
  | list items => items.mapM read
  | _ => none

end Fields

def readText : Document → Option String
  | text s => some s
  | _ => none

def readBool : Document → Option Bool
  | bool b => some b
  | _ => none

def readInt : Document → Option Int
  | natural n => some n
  | integer n => some n
  | _ => none

def readNat (bits : Nat) (d : Document) : Option Nat := do
  let n ← readInt d
  if Word.holds bits n then some n.toNat else none

def readInt32 (d : Document) : Option Int := do
  let n ← readInt d
  if Word.holdsSigned 32 n then some n else none

def readSeed (d : Document) : Option UInt64 := (readNat 64 d).map UInt64.ofNat

def readValue : Document → Option Value
  | natural n => some (Value.ofNat n)
  | integer n => some (Value.ofInt n)
  | number v => some v
  | _ => none

def readPair : Document → Option (Value × Value)
  | list [a, b] => do return (← readValue a, ← readValue b)
  | _ => none

/-- A word of a table of alternatives, alone or as the only key of a table without content. -/
def readWord {α : Type} (isEmpty : Document → Bool) (table : List (String × α)) :
    Document → Option α
  | text s => table.lookup s
  | .table [(s, d)] => if isEmpty d then table.lookup s else none
  | _ => none

/-- What may stand behind the word of an alternative inside of a source or an operator. -/
def isUnit : Document → Bool
  | null | table [] => true
  | _ => false

/-- The same at the top of a configuration, where it depends on the language. -/
def isUnitIn : Language → Document → Bool
  | .json, null => true
  | .toml, table [] | .toml, list [] => true
  | _, _ => false

def choice {α : Type} (table : List (String × α)) : Document → Option α := readWord isUnit table

mutual

/-- No part of the document is malformed, and lists and tables are nested no deeper than so many
levels. -/
def isSound : Nat → Document → Bool
  | _, malformed => false
  | 0, list _ | 0, table _ => false
  | depth + 1, list items => areSound depth items
  | depth + 1, table fields => fieldsSound depth fields
  | _, _ => true

def areSound : Nat → List Document → Bool
  | _, [] => true
  | depth, d :: rest => isSound depth d && areSound depth rest

def fieldsSound : Nat → List (String × Document) → Bool
  | _, [] => true
  | depth, (_, d) :: rest => isSound depth d && fieldsSound depth rest

end

/-- Levels that are left inside of a source or an operator. -/
def levelsLeft : Nat := 122

def rest? (known : List String) (fields : Fields) : Option Fields :=
  let others := fields.filter fun f => !known.contains f.1
  if others.all fun f => isSound levelsLeft f.2 then some others else none

/-- The type of a source or an operator, by its name or by its number. -/
def readType (names : List String) : Document → Option String
  | text s => if names.contains s then some s else none
  | natural i => names[i]?
  | _ => none

/-- The fields of a structure, which may come as a list in the order of their names. -/
def fieldsOf (names : List String) : Document → Option Fields
  | table fields => some fields
  | list items => if items.length ≤ names.length then some (names.zip items) else none
  | _ => none

/-- Items past the last field are only refused in JSON. -/
def fieldsIn (language : Language) (names : List String) : Document → Option Fields
  | list items =>
    match language with
    | .json => fieldsOf names (.list items)
    | .toml => some (names.zip items)
  | d => fieldsOf names d

end Document

open Document

namespace SourceSpec

def read (type : String) (f : Fields) : Option SourceSpec :=
  match type with
  | "extractor" => do
    return .group (← required (listOf readText) f "filters")
      (← given 1 (readNat 32) f "required_completions")
  | "list_filter" => do
    return .packed (← required (listOf readText) f "filters")
      (← required (readNat 8) f "word_count")
      (← given false readBool f "word_size_32") (← given false readBool f "reverse_combine")
      (← given 1 (readNat 8) f "repetitions")
  | "multi_hit" => do
    return .word (← required readText f "filter") (← required (choice Names.shapes) f "shape")
      (← required (readNat 16) f "max_hits")
  | _ => none

end SourceSpec

namespace SourceConfig

def ownFields : List String :=
  ["name", "module", "seed", "no_added_random", "repetition_low_address_bits"]

def ofDocument : Document → Option SourceConfig
  | .table fields => do
    let others ← rest? ownFields fields
    let type ← required (readType Names.sourceTypes) others "type"
    return {
      name := ← required readText fields "name"
      moduleIndex := ← required (readNat 8) fields "module"
      seed := ← optional readSeed fields "seed"
      plain := ← given false readBool fields "no_added_random"
      lowRepetition := ← given false readBool fields "repetition_low_address_bits"
      spec := ← SourceSpec.read type others }
  | _ => none

end SourceConfig

def Mapping.ofDocument (d : Document) : Option Mapping := do
  let f ← fieldsOf ["input_index", "param_index"] d
  return ⟨← required (readNat 64) f "input_index", ← required (readNat 64) f "param_index"⟩

def InputConfig.ofDocument (d : Document) : Option InputConfig := do
  let f ← fieldsOf ["input", "name", "unit"] d
  return ⟨← required readText f "input", ← optional readText f "name", ← given "" readText f "unit"⟩

namespace OperatorSpec

def readElementwise (type : String) (f : Fields) : Option OperatorSpec :=
  match type with
  | "calibration" => do
    return .calibration (← required readText f "input") (← required readValue f "unit_min")
      (← required readValue f "unit_max") (← given [] (listOf readPair) f "per_element")
  | "keep_previous" => do
    return .keepPrevious (← required readText f "input") (← given false readBool f "keep_valid")
  | "difference" => do
    return .difference (← required readText f "a") (← required readText f "b")
  | "array_map" => do
    return .arrayMap (← required (listOf readText) f "inputs")
      (← required (listOf Mapping.ofDocument) f "mappings")
  | "binary_equation" => do
    return .equation (← required readText f "a") (← required readText f "b")
      (← required (choice Names.equations) f "equation") (← required readValue f "output_min")
      (← required readValue f "output_max")
  | "aggregate" => do
    return .aggregate (← required readText f "input") (← required (choice Names.reductions) f "op")
      (← optional readValue f "min") (← optional readValue f "max")
  | "scaler_overflow" => do return .scalerOverflow (← required readText f "input")
  | "expression" => do
    return .expression (← required (listOf InputConfig.ofDocument) f "inputs")
      (← required readText f "begin") (← required readText f "step")
  | _ => none

def readFilter (type : String) (f : Fields) : Option OperatorSpec :=
  match type with
  | "range_filter" => do
    return .rangeFilter (← required readText f "input") (← required readValue f "min")
      (← required readValue f "max") (← given false readBool f "invert")
  | "rect_filter" => do
    return .rectangleFilter (← required readText f "x") (← required readText f "y")
      (← required readPair f "x_range") (← required readPair f "y_range")
      (← required (choice Names.junctions) f "op")
  | "condition_filter" => do
    return .conditionFilter (← required readText f "data") (← required readText f "condition")
      (← given false readBool f "inverted")
  | "interval_condition" => do
    return .intervalCondition (← required readText f "input")
      (← required (listOf readPair) f "intervals")
  | "rectangle_condition" => do
    return .rectangleCondition (← required readText f "x") (← required readText f "y")
      (← required readPair f "x_range") (← required readPair f "y_range")
  | "polygon_condition" => do
    return .polygonCondition (← required readText f "x") (← required readText f "y")
      (← required (listOf readPair) f "polygon")
  | _ => none

def readSink (type : String) (f : Fields) : Option OperatorSpec :=
  match type with
  | "h1d" => do
    return .histograms (← required readText f "input")
      (← given Config.defaultBins (readNat 64) f "bins") (← optional readPair f "range")
  | "h2d" => do
    return .planeHistogram (← required readText f "x") (← required readText f "y")
      (← given Config.defaultBins (readNat 64) f "x_bins")
      (← given Config.defaultBins (readNat 64) f "y_bins")
      (← optional readPair f "x_range") (← optional readPair f "y_range")
  | "rate_monitor" => do
    return .rateMonitor (← required readText f "input") (← required (choice Names.modes) f "mode")
      (← given Value.one readValue f "scale") (← given Value.zero readValue f "offset")
      (← given Sampler.defaultCapacity (readNat 64) f "history")
  | "export_sink" => do
    return .exportSink (← required (listOf readText) f "inputs")
      (← optional readText f "condition") (← required readText f "path")
      (← required (choice Names.formats) f "format") (← given 0 readInt32 f "compression_level")
  | _ => none

def read (type : String) (f : Fields) : Option OperatorSpec :=
  if ["h1d", "h2d", "rate_monitor", "export_sink"].contains type then readSink type f
  else if ["range_filter", "rect_filter", "condition_filter", "interval_condition",
    "rectangle_condition", "polygon_condition"].contains type then readFilter type f
  else readElementwise type f

end OperatorSpec

def OperatorConfig.ofDocument : Document → Option OperatorConfig
  | .table fields => do
    let others ← rest? ["name", "gate"] fields
    let type ← required (readType Names.operatorTypes) others "type"
    return {
      name := ← required readText fields "name"
      gate := ← optional readText fields "gate"
      spec := ← OperatorSpec.read type others }
  | _ => none

def EventConfig.ofDocument (language : Language) (d : Document) : Option EventConfig := do
  let f ← fieldsIn language ["index", "sources", "operators"] d
  return {
    index := ← required (readNat 64) f "index"
    sources := ← given [] (listOf SourceConfig.ofDocument) f "sources"
    operators := ← given [] (listOf OperatorConfig.ofDocument) f "operators" }

def Config.ofDocument (language : Language) (d : Document) : Option Config := do
  let f ← fieldsIn language ["arena_capacity", "fill_strategy", "rng_seed", "events"] d
  return {
    arenaCapacity := ← given Arena.defaultCapacity (readNat 64) f "arena_capacity"
    strategy := ← given .direct (readWord (isUnitIn language) Names.strategies) f "fill_strategy"
    seed := ← optional readSeed f "rng_seed"
    events := ← given [] (listOf (EventConfig.ofDocument language)) f "events" }

end Readout
