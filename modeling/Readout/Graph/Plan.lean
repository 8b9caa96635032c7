import Readout.Graph.Handle
import Readout.Operator.Basic
import Readout.Source.Basic
import Readout.Total

/-!
# Plans

A plan collects the nodes of each event before the graph runs. An operator gets a rank above the
ranks of the operators that write its inputs and above that of the condition that owns its gate
bit; sources have rank zero. Since the rank is fixed when an operator is added, what it reads has
to be there before it. Conditions take the next free bits of their event.
-/
namespace Readout

structure RankedOperator where
  operator : Operator
  rank : Nat

/-- The place of an output in the arena and the rank of the node that writes it. -/
structure Producer where
  start : Nat
  stop : Nat
  rank : Nat
deriving DecidableEq

/-- The nodes of one event in the order in which they were added. -/
structure EventPlan where
  sources : List Source
  operators : List RankedOperator

namespace EventPlan

def empty : EventPlan := ⟨[], []⟩

/-- Outputs without elements write nothing. -/
def producersOf (outputs : List Pipe) (rank : Nat) : List Producer :=
  (outputs.filter fun p => p.length ≠ 0).map fun p => ⟨p.data.offset, p.data.stop, rank⟩

def producers (e : EventPlan) : List Producer :=
  (e.sources.flatMap fun s => producersOf s.outputs 0) ++
    e.operators.flatMap fun o => producersOf o.operator.outputs o.rank

/-- Of the producers that start at an offset or before it, the last one to start. -/
def nearest? (offset : Nat) (ps : List Producer) : Option Producer :=
  ps.foldl (fun best p =>
    if p.start ≤ offset then
      match best with
      | some b => if b.start ≤ p.start then some p else some b
      | none => some p
    else best) none

def producerRank (e : EventPlan) (input : Pipe) : Nat :=
  match nearest? input.data.offset e.producers with
  | some p => if input.data.offset < p.stop then p.rank else 0
  | none => 0

/-- The rank of the condition that owns each bit. -/
def bitRanks (e : EventPlan) : List Nat :=
  e.operators.flatMap fun o => List.replicate o.operator.kind.bitCount o.rank

def bitCount (e : EventPlan) : Nat := e.bitRanks.length

def inputRank (e : EventPlan) (inputs : List Pipe) : Nat :=
  (inputs.map e.producerRank).foldl max 0

def rankFor (e : EventPlan) (op : Operator) : Except BuildError Nat :=
  match op.gate with
  | none => return e.inputRank op.inputs + 1
  | some bit =>
    match e.bitRanks[bit]? with
    | some r => return max (e.inputRank op.inputs) r + 1
    | none => throw (.unknownBit bit e.bitCount)

def addSource (e : EventPlan) (s : Source) : Except Error EventPlan :=
  if Handle.maxIndex < e.sources.length then throw (.build .tooManySources)
  else return { e with sources := e.sources ++ [s] }

def addOperator (e : EventPlan) (op : Operator) : Except Error EventPlan :=
  if Handle.maxIndex < e.operators.length then throw (.build .tooManyOperators)
  else do
    let rank ← (e.rankFor op).mapError fun c => Error.within (.kind op.kind.name) (.build c)
    let op := { op with kind := op.kind.withFirstBit e.bitCount }
    return { e with operators := e.operators ++ [⟨op, rank⟩] }

def maxFills (e : EventPlan) : Nat := total (e.operators.map fun o => o.operator.kind.maxFills)

end EventPlan

structure Plan where
  arena : Arena
  strategy : FillStrategy
  events : List EventPlan

/-- Computations that extend a plan. What they did before a failure stays. -/
abbrev Planning := ExceptT Error (StateM Plan)

namespace Plan

def maxEvents : Nat := 12
def maxModules : Nat := 20

def new (capacity : Nat) (strategy : FillStrategy) : Plan :=
  ⟨Arena.new capacity, strategy, List.replicate maxEvents EventPlan.empty⟩

def alloc {α : Type} (x : Alloc α) : Planning α := fun p =>
  let (r, a) := x p.arena
  (r, { p with arena := a })

def event (index : Nat) : Planning EventPlan := do
  match (← get).events[index]? with
  | some e => return e
  | none => throw (.build (.eventIndex index))

def setEvent (index : Nat) (e : EventPlan) : Planning Unit :=
  modify fun p => { p with events := p.events.set index e }

def ofExcept {α : Type} : Except Error α → Planning α
  | .ok x => return x
  | .error e => throw e

def addSource (index : Nat) (s : Source) : Planning Handle := do
  if maxModules ≤ s.moduleIndex then throw (.build (.moduleIndex s.moduleIndex))
  let e ← event index
  setEvent index (← ofExcept (e.addSource s))
  return Handle.new index e.sources.length

def addOperator (index : Nat) (op : Operator) : Planning Handle := do
  let e ← event index
  setEvent index (← ofExcept (e.addOperator op))
  return Handle.new index e.operators.length

def source? (p : Plan) (h : Handle) : Option Source := do (← p.events[h.event]?).sources[h.index]?

def operator? (p : Plan) (h : Handle) : Option RankedOperator := do
  (← p.events[h.event]?).operators[h.index]?

def bits? (p : Plan) (h : Handle) : Option (Nat × Nat) := do
  let o ← p.operator? h
  let first ← o.operator.kind.firstBit?
  if o.operator.isCondition then some (first, first + o.operator.kind.bitCount) else none

/-- Bins that one event can queue at most. -/
def maxFills (p : Plan) : Nat := (p.events.map EventPlan.maxFills).foldl max 0

end Plan

end Readout
