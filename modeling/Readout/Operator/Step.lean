import Readout.ConditionBits
import Readout.Operator.Make
import Readout.Polygon

/-!
# Running operators

A step computes the outputs of an operator from its inputs, rewrites its condition bits, or adds
to what it keeps. An operator whose gate is closed invalidates its outputs instead and does
nothing else. What an element of an output becomes is a function of the elements it is computed
from; these functions come first.
-/
namespace Readout

/-- What the operators of an event work on. -/
structure Frame where
  store : Store
  bits : ConditionBits
  filler : Filler
  volume : Volume

namespace Frame

def values (f : Frame) (p : Pipe) : List Value := f.store.values p.data

def write (f : Frame) (p : Pipe) (vs : List Value) : Frame :=
  { f with store := f.store.assign p.data vs }

def writeFirst (f : Frame) (outputs : List Pipe) (vs : List Value) : Frame :=
  match outputs with
  | [] => f
  | p :: _ => f.write p vs

def writeEach (f : Frame) (outputs : List Pipe) (vss : List (List Value)) : Frame :=
  (outputs.zip vss).foldl (fun f (p, vs) => f.write p vs) f

def invalidate (f : Frame) (outputs : List Pipe) : Frame :=
  { f with store := outputs.foldl (fun st p => st.invalidate p.data) f.store }

def setBits (f : Frame) (firstBit : Nat) : List Bool → Frame
  | [] => f
  | b :: rest => { f with bits := f.bits.set firstBit b }.setBits (firstBit + 1) rest

end Frame

section Elements

variable {α : Type} [Scalar α]

/-- Moves a value from its declared interval to its units. -/
def rescale (value lower unitMin factor : α) : α := (value - lower) * factor + unitMin

end Elements

namespace Element

def calibrated (value lower unitMin factor : Value) : Value :=
  if value.isValid then rescale value lower unitMin factor else value

def difference (a b : Value) : Value :=
  if a.isValid && b.isValid then a - b else Value.invalid

def equation (e : Equation) (a b : Value) : Value :=
  if a.isValid && b.isValid then (e.apply a b).getD Value.invalid else Value.invalid

def inRange (w : Window Value) (inverted : Bool) (v : Value) : Value :=
  if v.isValid && w.contains v != inverted then v else Value.invalid

/-- A datum passes while its condition is valid, or while it is not. -/
def conditioned (inverted : Bool) (condition v : Value) : Value :=
  if condition.isValid != inverted then v else Value.invalid

/-- What is remembered of an element. -/
def remembered (keepValid : Bool) (previous v : Value) : Value :=
  if !keepValid || v.isValid then v else previous

/-- A counter that goes back has overflowed once more. -/
def overflows (count last v : Value) : Value :=
  if v.isValid && last.isValid && Value.below v last then count + Value.one else count

def unwrapped (upper count v : Value) : Value :=
  if v.isValid then v + count * upper else Value.invalid

end Element

namespace Kind

/-- The valid elements inside the window, or inside their own limits where it is open. -/
def selected (w : Window Value) (data lower upper : List Value) : Reduction.Selected Value :=
  ((data.zip (lower.zip upper)).zipIdx.filter fun ((v, l), _) =>
    (w.orLimits l.1 l.2).admits v).map fun ((v, _), i) => (i, v)

def aggregated (r : Reduction) (w : Window Value) (data lower upper : List Value) : Value :=
  (r.apply (selected w data lower upper)).getD Value.invalid

def rectangle (junction : Junction) (x y : Bool) : Bool :=
  match junction with
  | .both => x && y
  | .either => x || y

/-- Both coordinates are valid and inside their windows. -/
def inRectangle (x y : Window Value) (a b : Value) : Bool := x.admits a && y.admits b

def inPolygon (polygon : List (Value × Value)) (a b : Value) : Bool :=
  a.isValid && b.isValid && Polygon.contains a b polygon

/-- One condition for each element, or one for all of them. -/
def conditioned (inverted : Bool) (data condition : List Value) : List Value :=
  if condition.length = data.length then
    List.zipWith (Element.conditioned inverted) condition data
  else data.map (Element.conditioned inverted (condition.headD Value.invalid))

end Kind

def pairOf? : List (List Value) → Option (Value × Value)
  | [x :: _, y :: _] => some (x, y)
  | _ => none

namespace Histogram

def fillEach : List Histogram → List Value → Filler → Store → List Histogram × Filler × Store
  | h :: hs, v :: vs, f, st =>
    let (h, f, st) := if v.isValid then h.fill v f st else (h, f, st)
    let (hs, f, st) := fillEach hs vs f st
    (h :: hs, f, st)
  | hs, _, f, st => (hs, f, st)

def clearEach : List Histogram → Store → List Histogram × Store
  | [], st => ([], st)
  | h :: hs, st =>
    let (h, st) := h.clear st
    let (hs, st) := clearEach hs st
    (h :: hs, st)

end Histogram

namespace Operator

def isOpen (op : Operator) (bits : ConditionBits) : Bool := op.gate.all bits.test

def zip3 (f : Value → Value → Value → Value) : List Value → List Value → List Value → List Value
  | a :: as, b :: bs, c :: cs => f a b c :: zip3 f as bs cs
  | _, _, _ => []

def zip4 (f : Value → Value → Value → Value → Value) :
    List Value → List Value → List Value → List Value → List Value
  | a :: as, b :: bs, c :: cs, d :: ds => f a b c d :: zip4 f as bs cs ds
  | _, _, _, _ => []

/-- The values of the inputs, in a form that a kind with two of them can match. -/
def inputValues (op : Operator) (f : Frame) : List (List Value) := op.inputs.map f.values

def firstInput (op : Operator) : Pipe := op.inputs.headD default
def firstOutput (op : Operator) : Pipe := op.outputs.headD default

/-- The step of an operator whose gate is open. -/
def compute (op : Operator) (f : Frame) : Operator × Frame :=
  let ins := op.inputValues f
  match op.kind with
  | .calibration factors =>
    (op, f.writeFirst op.outputs (zip4 Element.calibrated (ins.headD [])
      (f.store.values op.firstInput.lower) (f.store.values op.firstOutput.lower)
      (f.store.values factors)))
  | .keepPrevious previous keepValid =>
    let kept := f.store.values previous
    let f := f.writeFirst op.outputs kept
    (op, { f with
      store := f.store.assign previous
        (List.zipWith (Element.remembered keepValid) kept (ins.headD [])) })
  | .difference =>
    match ins with
    | [a, b] => (op, f.writeFirst op.outputs (List.zipWith Element.difference a b))
    | _ => (op, f)
  | .arrayMap mappings =>
    (op, f.writeFirst op.outputs (mappings.map fun m => (mapped? ins m).getD Value.invalid))
  | .equation e =>
    match ins with
    | [a, b] => (op, f.writeFirst op.outputs (List.zipWith (Element.equation e) a b))
    | _ => (op, f)
  | .aggregate r w =>
    (op, f.writeFirst op.outputs [Kind.aggregated r w (ins.headD [])
      (f.store.values op.firstInput.lower) (f.store.values op.firstInput.upper)])
  | .rangeFilter w inverted =>
    (op, f.writeFirst op.outputs ((ins.headD []).map (Element.inRange w inverted)))
  | .rectangleFilter x y junction =>
    match pairOf? ins with
    | some (a, b) =>
      (op, f.writeFirst op.outputs
        [if Kind.rectangle junction (x.admits a) (y.admits b) then Value.one else Value.invalid])
    | none => (op, f)
  | .conditionFilter inverted =>
    match ins with
    | [data, condition] => (op, f.writeFirst op.outputs (Kind.conditioned inverted data condition))
    | _ => (op, f)
  | .scalerOverflow last overflows =>
    let vs := ins.headD []
    let old := f.store.values last
    let counts := zip3 Element.overflows (f.store.values overflows) old vs
    let upper := f.store.values op.firstInput.upper
    let f := f.writeFirst op.outputs (zip3 Element.unwrapped upper counts vs)
    (op, { f with
      store := (f.store.assign overflows counts).assign last
        (List.zipWith (Element.remembered true) old vs) })
  | .expression e =>
    match e.evaluate ins (op.outputs.map f.values) with
    | some results => (op, f.writeEach op.outputs results)
    | none => ({ op with kind := .expression { e with failed := true } }, f.invalidate op.outputs)
  | .histograms hs =>
    let (hs, filler, store) := Histogram.fillEach hs (ins.headD []) f.filler f.store
    ({ op with kind := .histograms hs }, { f with filler := filler, store := store })
  | .planeHistogram h =>
    match pairOf? ins with
    | some (a, b) =>
      if a.isValid && b.isValid then
        let (h, filler, store) := h.fill a b f.filler f.store
        ({ op with kind := .planeHistogram h }, { f with filler := filler, store := store })
      else (op, f)
    | none => (op, f)
  | .rateMonitor m =>
    let (m, store) := m.step f.store (ins.headD [])
    ({ op with kind := .rateMonitor m }, { f with store := store })
  | .exportSink s =>
    let (s, volume) := s.step ins f.volume
    ({ op with kind := .exportSink s }, { f with volume := volume })
  | .intervalCondition intervals firstBit =>
    (op, f.setBits firstBit (List.zipWith Window.admits intervals (ins.headD [])))
  | .rectangleCondition x y bit =>
    match pairOf? ins with
    | some (a, b) => (op, f.setBits bit [Kind.inRectangle x y a b])
    | none => (op, f)
  | .polygonCondition polygon bit =>
    match pairOf? ins with
    | some (a, b) => (op, f.setBits bit [Kind.inPolygon polygon a b])
    | none => (op, f)

def step (op : Operator) (f : Frame) : Operator × Frame :=
  if op.isOpen f.bits then op.compute f else (op, f.invalidate op.outputs)

def beginRun (op : Operator) (f : Frame) : Operator × Frame :=
  match op.kind with
  | .keepPrevious previous _ => (op, { f with store := f.store.invalidate previous })
  | .scalerOverflow last overflows =>
    (op, { f with store := (f.store.invalidate last).fill overflows Value.zero })
  | .histograms hs =>
    let (hs, store) := Histogram.clearEach hs f.store
    ({ op with kind := .histograms hs }, { f with store := store })
  | .planeHistogram h =>
    let (h, store) := h.clear f.store
    ({ op with kind := .planeHistogram h }, { f with store := store })
  | .rateMonitor m =>
    let (m, store) := m.beginRun f.store
    ({ op with kind := .rateMonitor m }, { f with store := store })
  | .exportSink s =>
    let (s, volume) := s.beginRun f.volume
    ({ op with kind := .exportSink s }, { f with volume := volume })
  | _ => (op, f)

def endRun (op : Operator) (f : Frame) : Operator × Frame :=
  match op.kind with
  | .exportSink s =>
    let (s, volume) := s.endRun f.volume
    ({ op with kind := .exportSink s }, { f with volume := volume })
  | _ => (op, f)

def tick (op : Operator) (store : Store) : Operator :=
  match op.kind with
  | .rateMonitor m => { op with kind := .rateMonitor (m.tick store) }
  | .exportSink s => { op with kind := .exportSink s.tick }
  | _ => op

end Operator

end Readout
