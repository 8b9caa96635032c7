import Readout.Config.Reference
import Readout.Graph.Basic
import Readout.Word

/-!
# Building an analysis

The sources of all events come first. After that the operators of an event may be listed in any
order: passes over the list add each operator whose references are known by then, until all are
added or a whole pass adds none. A reference that is still unknown then is unknown for good, or
part of a cycle.
-/
namespace Readout

/-- The pipes and the condition bits that a name stands for. -/
structure Named where
  name : String
  outputs : List Pipe
  bits : Option (Nat × Nat)

structure NodeName where
  event : Nat
  name : String
deriving DecidableEq

/-- A plan with the names of its nodes, and the seed of the next source without its own. -/
structure Draft where
  plan : Plan
  /-- The names of each event. -/
  names : List (List Named)
  nextSeed : UInt64
  sources : List (NodeName × Handle)
  operators : List (NodeName × Handle)

abbrev Drafting := ExceptT Error (StateM Draft)

namespace Draft

def new (c : Config) (seed : UInt64) : Draft :=
  ⟨Plan.new c.arenaCapacity c.strategy, List.replicate Plan.maxEvents [], c.seed.getD seed + 1, [],
    []⟩

def namesOf (d : Draft) (event : Nat) : List Named := d.names.getD event []

def find? (d : Draft) (event : Nat) (name : String) : Option Named :=
  (d.namesOf event).find? fun n => n.name = name

/-- A reference is known when its node is. -/
def isKnown (d : Draft) (event : Nat) (reference : String) : Bool :=
  match Reference.parse? reference with
  | some r => (d.find? event r.name).isSome
  | none => false

def ofExcept {α : Type} : Except Error α → Drafting α
  | .ok x => return x
  | .error e => throw e

def fail {α : Type} (e : ConfigError) : Drafting α := throw (.config e)

def planning {α : Type} (x : Planning α) : Drafting α := fun d =>
  let (r, p) := x d.plan
  (r, { d with plan := p })

def alloc {α : Type} (x : Alloc α) : Drafting α := planning (Plan.alloc x)

def addName (event : Nat) (n : Named) : Drafting Unit :=
  modify fun d => { d with names := d.names.modify event (n :: ·) }

/-- A new name has to be plain and free. -/
def claim (event : Nat) (name : String) : Drafting Unit := do
  if !Reference.isName name then fail (.nodeName name)
  if ((← get).find? event name).isSome then fail (.duplicateName name)

def reference (text : String) : Drafting Reference :=
  ofExcept ((Reference.read text).mapError Error.config)

def resolvePipe (d : Draft) (event : Nat) (text : String) (r : Reference) :
    Except ConfigError Pipe := do
  let some named := d.find? event r.name | throw (.unknownReference r.name)
  let some pipe := named.outputs[r.output]?
    | throw (.noOutput r.name r.output named.outputs.length)
  match r.element with
  | none => return pipe
  | some i =>
    match pipe.element? i with
    | some p => return p
    | none => throw (.elementRange i text pipe.length)

def resolve (event : Nat) (text : String) : Drafting Pipe := do
  let r ← reference text
  ofExcept (((← get).resolvePipe event text r).mapError Error.config)

def resolveBit (d : Draft) (event : Nat) (text : String) (r : Reference) :
    Except ConfigError Nat := do
  let some named := d.find? event r.name | throw (.unknownCondition r.name)
  let some (first, stop) := named.bits | throw (.notCondition r.name)
  let bit := (first + r.element.getD 0) % Word.size 64
  if r.output ≠ 0 ∨ stop ≤ bit then throw (.bitRange text (stop - first))
  return bit

def resolveGate (event : Nat) (text : String) : Drafting Nat := do
  let r ← reference text
  ofExcept (((← get).resolveBit event text r).mapError Error.config)

def seedFor (s : SourceConfig) : Drafting UInt64 := do
  match s.seed with
  | some seed => return seed
  | none => do
    let d ← get
    set { d with nextSeed := d.nextSeed + 1 }
    return d.nextSeed

def patternError : Error → Error
  | .pattern e => .config (.pattern e)
  | .combine e => .config (.combine e)
  | e => e

def makeSource (s : SourceConfig) (o : SourceOptions) : Drafting Source :=
  match s.spec with
  | .group patterns required => do
    let g ← ofExcept ((Group.parse patterns).mapError fun e => patternError (.pattern e))
    alloc (Source.ofGroup g required o)
  | .packed patterns wordCount wide reversed repetitions => do
    let p ← ofExcept ((Packing.make wide reversed wordCount patterns).mapError patternError)
    alloc (Source.ofPacking p repetitions s.lowRepetition o)
  | .word pattern shape maxHits => do
    let p ← ofExcept ((Pattern.parse pattern).mapError fun e => patternError (.pattern e))
    alloc (Source.ofPattern p shape maxHits o)

def addSource (event : Nat) (s : SourceConfig) : Drafting Unit := do
  claim event s.name
  let source ← makeSource s ⟨← seedFor s, s.moduleIndex, s.plain⟩
  let h ← planning (Plan.addSource event source)
  addName event ⟨s.name, source.outputs, none⟩
  modify fun d => { d with sources := (⟨event, s.name⟩, h) :: d.sources }

def windowOf (l : Limits) : Window Value := ⟨l.1, l.2⟩

def axisOf (l : Limits) : Axis := Axis.ofLimits l.1 l.2

def resolveInput (event : Nat) (i : InputConfig) : Drafting Operator.NamedInput := do
  let name ← match i.name with
    | some n => pure n
    | none => do pure (← reference i.input).name
  return ⟨← resolve event i.input, name, i.unit⟩

/-- A single interval stands for all elements. -/
def intervalsFor (length : Nat) (intervals : List Limits) : List (Window Value) :=
  match intervals with
  | [l] => if 1 < length then List.replicate length (windowOf l) else [windowOf l]
  | ls => ls.map windowOf

def makeOperator (event : Nat) : OperatorSpec → Drafting Operator
  | .calibration input unitMin unitMax perElement => do
    let p ← resolve event input
    if perElement.isEmpty then alloc (Operator.calibration p unitMin unitMax)
    else alloc (Operator.calibrationEach p perElement)
  | .keepPrevious input keepValid => do
    alloc (Operator.keepPrevious (← resolve event input) keepValid)
  | .difference a b => do alloc (Operator.difference (← resolve event a) (← resolve event b))
  | .arrayMap inputs mappings => do
    alloc (Operator.arrayMap (← inputs.mapM (resolve event)) mappings)
  | .equation a b e outputMin outputMax => do
    alloc (Operator.equation (← resolve event a) (← resolve event b) e outputMin outputMax)
  | .aggregate input r min max => do
    alloc (Operator.aggregate (← resolve event input) r
      ⟨min.getD Value.unset, max.getD Value.unset⟩)
  | .rangeFilter input min max inverted => do
    alloc (Operator.rangeFilter (← resolve event input) ⟨min, max⟩ inverted)
  | .rectangleFilter x y xRange yRange junction => do
    alloc (Operator.rectangleFilter (← resolve event x) (← resolve event y) (windowOf xRange)
      (windowOf yRange) junction)
  | .conditionFilter data condition inverted => do
    alloc (Operator.conditionFilter (← resolve event data) (← resolve event condition) inverted)
  | .scalerOverflow input => do alloc (Operator.scalerOverflow (← resolve event input))
  | .expression inputs beginScript stepScript => do
    alloc (Operator.expression (← inputs.mapM (resolveInput event)) beginScript stepScript)
  | .histograms input bins range => do
    alloc (Operator.histograms (← resolve event input) bins (range.map axisOf))
  | .planeHistogram x y xBins yBins xRange yRange => do
    alloc (Operator.planeHistogram (← resolve event x) (← resolve event y) xBins yBins
      (xRange.map axisOf) (yRange.map axisOf))
  | .rateMonitor input mode scale offset history => do
    let p ← resolve event input
    alloc (Operator.rateMonitor p (List.replicate p.length (Sampler.new scale offset history)) mode)
  | .exportSink inputs condition path format level => do
    let pipes ← inputs.mapM (resolve event)
    let gate ← condition.mapM (resolve event)
    alloc (Operator.exportSink pipes gate path format level)
  | .intervalCondition input intervals => do
    let p ← resolve event input
    alloc (Operator.intervalCondition p (intervalsFor p.length intervals))
  | .rectangleCondition x y xRange yRange => do
    alloc (Operator.rectangleCondition (← resolve event x) (← resolve event y) (windowOf xRange)
      (windowOf yRange))
  | .polygonCondition x y polygon => do
    alloc (Operator.polygonCondition (← resolve event x) (← resolve event y) polygon)

def gated (event : Nat) (gate : Option String) (op : Operator) : Drafting Operator := do
  match gate with
  | some g => return op.withGate (← resolveGate event g)
  | none => return op

def addOperator (event : Nat) (o : OperatorConfig) : Drafting Unit := do
  claim event o.name
  let op ← gated event o.gate (← makeOperator event o.spec)
  let h ← planning (Plan.addOperator event op)
  addName event ⟨o.name, op.outputs, (← get).plan.bits? h⟩
  modify fun d => { d with operators := (⟨event, o.name⟩, h) :: d.operators }

def isReady (d : Draft) (event : Nat) (o : OperatorConfig) : Bool :=
  o.references.all (d.isKnown event)

/-- One pass over the operators that wait. Returns those that have to wait on. -/
def pass (event : Nat) : List OperatorConfig → Drafting (List OperatorConfig)
  | [] => return []
  | o :: rest => do
    if (← get).isReady event o then
      inContext (.operator event o.name) (addOperator event o)
      pass event rest
    else return o :: (← pass event rest)

def missing (d : Draft) (event : Nat) (o : OperatorConfig) : String :=
  (o.references.find? fun r => !d.isKnown event r).getD ""

/-- Passes until no operator waits. Each pass has to add one. -/
def addOperators (event : Nat) : Nat → List OperatorConfig → Drafting Unit
  | _, [] => return
  | 0, o :: _ => unresolved event o
  | fuel + 1, o :: rest => do
    let waiting ← pass event (o :: rest)
    match waiting with
    | [] => return
    | o' :: _ =>
      if waiting.length = rest.length + 1 then unresolved event o'
      else addOperators event fuel waiting
where
  unresolved (event : Nat) (o : OperatorConfig) : Drafting Unit := do
    let r := (← get).missing event o
    inContext (.operator event o.name) (fail (.unresolved r))

def addSources (event : Nat) : List SourceConfig → Drafting Unit
  | [] => return
  | s :: rest => do
    inContext (.source event s.name) (addSource event s)
    addSources event rest

def addEventSources : List EventConfig → Drafting Unit
  | [] => return
  | e :: rest => do
    if Plan.maxEvents ≤ e.index then fail (.eventIndex e.index)
    addSources e.index e.sources
    addEventSources rest

def addEventOperators : List EventConfig → Drafting Unit
  | [] => return
  | e :: rest => do
    addOperators e.index e.operators.length e.operators
    addEventOperators rest

def addEvents (c : Config) : Drafting Unit := do
  addEventSources c.events
  addEventOperators c.events

end Draft

structure Analysis where
  graph : Graph
  sources : List (NodeName × Handle)
  operators : List (NodeName × Handle)

namespace Analysis

def source? (a : Analysis) (event : Nat) (name : String) : Option Handle :=
  a.sources.lookup ⟨event, name⟩

def operator? (a : Analysis) (event : Nat) (name : String) : Option Handle :=
  a.operators.lookup ⟨event, name⟩

end Analysis

/-- Builds the analysis that a configuration describes. The given seed counts where the
configuration has none. -/
def Config.build (c : Config) (seed : UInt64) (volume : Volume) : Except Error Analysis :=
  match (Draft.addEvents c).run (Draft.new c seed) with
  | (.ok _, d) => .ok ⟨d.plan.build volume, d.sources, d.operators⟩
  | (.error e, _) => .error e

end Readout
