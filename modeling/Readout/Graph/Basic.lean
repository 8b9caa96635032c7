import Readout.Graph.Places
import Readout.Graph.Plan
import Readout.Operator.Step
import Readout.Total

/-!
# Graphs

A graph is a plan put in order: the sources of an event stand by module, its operators by rank,
and nodes of one module or rank as they were added. Running the operators of an event in this
order computes every input before it is read. Nodes keep the number under which they were added.
-/
namespace Readout

/-- The nodes of one event in running order, with its condition bits. -/
structure Slot where
  sources : List (Numbered Source)
  operators : List (Numbered RankedOperator)
  bits : ConditionBits

def EventPlan.slot (e : EventPlan) : Slot where
  sources := sortBy Source.moduleIndex e.sources
  operators := sortBy RankedOperator.rank e.operators
  bits := ConditionBits.new e.bitCount

structure Graph where
  slots : List Slot
  arena : Arena
  filler : Filler
  volume : Volume
  running : Bool
  /-- Events that ended since the run began. -/
  events : Nat
  ticks : Nat

/-- Exports of the graph go to the given volume. -/
def Plan.build (p : Plan) (volume : Volume) : Graph where
  slots := p.events.map EventPlan.slot
  arena := p.arena
  filler := (Filler.new p.strategy 0).reserve p.maxFills
  volume := volume
  running := false
  events := 0
  ticks := 0

namespace Slot

def source? (s : Slot) (index : Nat) : Option Source :=
  (s.sources.find? fun n => n.index = index).map Numbered.node

def operator? (s : Slot) (index : Nat) : Option RankedOperator :=
  (s.operators.find? fun n => n.index = index).map Numbered.node

def mapOperators (f : Operator → Frame → Operator × Frame) :
    List (Numbered RankedOperator) → Frame → List (Numbered RankedOperator) × Frame
  | [], fr => ([], fr)
  | n :: rest, fr =>
    let (op, fr) := f n.node.operator fr
    let (rest, fr) := mapOperators f rest fr
    ({ n with node := { n.node with operator := op } } :: rest, fr)

def mapSources (f : Source → Store → Source × Store) :
    List (Numbered Source) → Store → List (Numbered Source) × Store
  | [], st => ([], st)
  | n :: rest, st =>
    let (s, st) := f n.node st
    let (rest, st) := mapSources f rest st
    ({ n with node := s } :: rest, st)

/-- Hands words to the sources of a module. Sources stand by module, so the walk ends at the
first larger one. -/
def feedSources (moduleIndex : Nat) (words : List UInt32) :
    List (Numbered Source) → Store → List (Numbered Source) × Store
  | [], st => ([], st)
  | n :: rest, st =>
    if n.node.moduleIndex = moduleIndex then
      let (s, st, _) := n.node.feed st words
      let (rest, st) := feedSources moduleIndex words rest st
      ({ n with node := s } :: rest, st)
    else if moduleIndex < n.node.moduleIndex then (n :: rest, st)
    else
      let (rest, st) := feedSources moduleIndex words rest st
      (n :: rest, st)

end Slot

namespace Graph

def source? (g : Graph) (h : Handle) : Option Source := do (← g.slots[h.event]?).source? h.index

def operator? (g : Graph) (h : Handle) : Option RankedOperator := do
  (← g.slots[h.event]?).operator? h.index

def sourceCount (g : Graph) : Nat := total (g.slots.map fun s => s.sources.length)

def operatorCount (g : Graph) : Nat := total (g.slots.map fun s => s.operators.length)

/-- All histograms over one axis in the order of events and ranks. -/
def histograms (g : Graph) : List Histogram :=
  g.slots.flatMap fun s => s.operators.flatMap fun n =>
    match n.node.operator.kind with
    | .histograms hs => hs
    | _ => []

end Graph

end Readout
