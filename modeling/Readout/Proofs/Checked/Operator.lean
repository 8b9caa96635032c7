import Readout.Proofs.Checked.Access
import Readout.Proofs.Operator.Layout
import Readout.Operator.Step

/-!
# Checked steps

A checked step takes its inputs and outputs from their lists by number, element by element where
the plain step treats whole spans, and looks at each access. Of an operator whose spans lie in the
store and have the sizes that its maker has checked, it makes the same as the plain step.
-/
namespace Readout

namespace Filler

/-- The bin has to be one of the span. -/
def increment? (f : Filler) (s : Store) (data : Span) (bin : Nat) : Option (Filler × Store) :=
  if bin < data.length then
    match data.element? bin with
    | none => some (f, s)
    | some cell =>
      if f.strategy = .batched ∧ f.pending < f.capacity then
        some ({ f with queue := cell :: f.queue }, s)
      else do
        s.view? [cell]
        return (f, ← s.increment? cell 0)
  else none

def flush? (f : Filler) (s : Store) : Option (Filler × Store) := do
  let s ← f.queue.foldrM (fun cell s => do
    s.view? [cell]
    s.increment? cell 0) s
  return ({ f with queue := [] }, s)

end Filler

namespace Histogram

def fill? (h : Histogram) (x : Value) (f : Filler) (s : Store) :
    Option (Histogram × Filler × Store) :=
  if x.isNaN then some (h, f, s)
  else
    match h.target x with
    | .under => some ({ h with underflow := h.underflow + Value.one }, f, s)
    | .over => some ({ h with overflow := h.overflow + Value.one }, f, s)
    | .index i => do
      let (f, s) ← f.increment? s h.data i
      return ({ h with entries := h.entries + Value.one }, f, s)

def fillEach? : List Histogram → List Value → Filler → Store →
    Option (List Histogram × Filler × Store)
  | h :: hs, v :: vs, f, s => do
    let (h, f, s) ← if v.isValid then h.fill? v f s else some (h, f, s)
    let (hs, f, s) ← fillEach? hs vs f s
    return (h :: hs, f, s)
  | hs, _, f, s => some (hs, f, s)

end Histogram

def PlaneHistogram.fill? (h : PlaneHistogram) (x y : Value) (f : Filler) (s : Store) :
    Option (PlaneHistogram × Filler × Store) :=
  if x.isNaN || y.isNaN then some (h, f, s)
  else
    match h.x.bin h.xBins x, h.y.bin h.yBins y with
    | .index i, .index j => do
      let (f, s) ← f.increment? s h.data (h.cell i j)
      return ({ h with entries := h.entries + Value.one }, f, s)
    | .under, _ | _, .under => some ({ h with underflow := h.underflow + Value.one }, f, s)
    | _, _ => some ({ h with overflow := h.overflow + Value.one }, f, s)

namespace Operator

def pair? (op : Operator) (s : Store) : Option (Value × Value) := do
  let x ← op.inputs[0]?
  let y ← op.inputs[1]?
  s.view? [x.data, y.data]
  return (← s.load? x.data 0, ← s.load? y.data 0)

/-- Computes each element of the first output from those of two inputs. -/
def zip? (op : Operator) (g : Value → Value → Value) (f : Frame) : Option Frame := do
  let a ← op.inputs[0]?
  let b ← op.inputs[1]?
  let o ← op.outputs[0]?
  f.store.view? [a.data, b.data, o.data]
  let store ← f.store.loop? o.length fun i s => do
    s.save? o.data i (g (← s.load? a.data i) (← s.load? b.data i))
  return { f with store := store }

def compute? (op : Operator) (f : Frame) : Option (Operator × Frame) :=
  match op.kind with
  | .calibration factors => do
    let p ← op.inputs[0]?
    let o ← op.outputs[0]?
    f.store.view? [p.data, p.lower, o.data, o.lower, factors]
    let store ← f.store.loop? p.length fun i s => do
      s.save? o.data i (Element.calibrated (← s.load? p.data i) (← s.load? p.lower i)
        (← s.load? o.lower i) (← s.load? factors i))
    return (op, { f with store := store })
  | .keepPrevious previous keepValid => do
    let p ← op.inputs[0]?
    let o ← op.outputs[0]?
    f.store.view? [p.data, o.data, previous]
    let store ← f.store.loop? p.length fun i s => do s.save? o.data i (← s.load? previous i)
    let store ← store.loop? p.length fun i s => do
      s.save? previous i (Element.remembered keepValid (← s.load? previous i) (← s.load? p.data i))
    return (op, { f with store := store })
  | .difference => do return (op, ← op.zip? Element.difference f)
  | .equation e => do return (op, ← op.zip? (Element.equation e) f)
  | .arrayMap _ => do
    let o ← op.outputs[0]?
    f.store.view? (o.data :: op.inputs.map Pipe.data)
    return op.compute f
  | .aggregate r w => do
    let p ← op.inputs[0]?
    let o ← op.outputs[0]?
    f.store.view? [p.data, p.lower, p.upper, o.data]
    let lower ← (List.range p.length).mapM (f.store.load? p.lower)
    let upper ← (List.range p.length).mapM (f.store.load? p.upper)
    let store ← f.store.save? o.data 0
      (Kind.aggregated r w (f.store.values p.data) lower upper)
    return (op, { f with store := store })
  | .rangeFilter .. => do
    let p ← op.inputs[0]?
    let o ← op.outputs[0]?
    f.store.view? [p.data, o.data]
    return op.compute f
  | .rectangleFilter x y junction => do
    let (a, b) ← op.pair? f.store
    let o ← op.outputs[0]?
    f.store.view? [o.data]
    let store ← f.store.save? o.data 0
      (if Kind.rectangle junction (x.admits a) (y.admits b) then Value.one else Value.invalid)
    return (op, { f with store := store })
  | .conditionFilter inverted => do
    let p ← op.inputs[0]?
    let c ← op.inputs[1]?
    let o ← op.outputs[0]?
    f.store.view? [p.data, c.data, o.data]
    if c.length = p.length then
      let store ← f.store.loop? p.length fun i s => do
        s.save? o.data i
          (Element.conditioned inverted (← s.load? c.data i) (← s.load? p.data i))
      return (op, { f with store := store })
    else
      let v ← f.store.load? c.data 0
      return (op, f.write o ((f.values p).map (Element.conditioned inverted v)))
  | .scalerOverflow last overflows => do
    let p ← op.inputs[0]?
    let o ← op.outputs[0]?
    f.store.view? [p.data, p.upper, o.data, last, overflows]
    let store ← f.store.loop? p.length fun i s => do
      let v ← s.load? p.data i
      let previous ← s.load? last i
      let count := Element.overflows (← s.load? overflows i) previous v
      let s ← s.save? o.data i (Element.unwrapped (← s.load? p.upper i) count v)
      let s ← s.save? overflows i count
      s.save? last i (Element.remembered true previous v)
    return (op, { f with store := store })
  | .expression _ => do
    f.store.view? (op.inputs.map Pipe.data ++ op.outputs.map Pipe.data)
    return op.compute f
  | .histograms hs => do
    let p ← op.inputs[0]?
    f.store.view? [p.data]
    let (hs, filler, store) ← Histogram.fillEach? hs (f.values p) f.filler f.store
    return ({ op with kind := .histograms hs }, { f with filler := filler, store := store })
  | .planeHistogram h => do
    let (a, b) ← op.pair? f.store
    if a.isValid && b.isValid then
      let (h, filler, store) ← h.fill? a b f.filler f.store
      return ({ op with kind := .planeHistogram h }, { f with filler := filler, store := store })
    else return (op, f)
  | .rateMonitor m => do
    let p ← op.inputs[0]?
    f.store.view? [p.data, m.hitCounts]
    return op.compute f
  | .exportSink s => do
    if s.hasCondition then
      let c ← op.inputs.getLast?
      f.store.view? [c.data]
      let _ ← f.store.load? c.data 0
    f.store.view? (op.inputs.map Pipe.data)
    return op.compute f
  | .intervalCondition .. => do
    let p ← op.inputs[0]?
    f.store.view? [p.data]
    return op.compute f
  | .rectangleCondition x y bit => do
    let (a, b) ← op.pair? f.store
    return (op, f.setBits bit [Kind.inRectangle x y a b])
  | .polygonCondition polygon bit => do
    let (a, b) ← op.pair? f.store
    return (op, f.setBits bit [Kind.inPolygon polygon a b])

def step? (op : Operator) (f : Frame) : Option (Operator × Frame) :=
  if op.isOpen f.bits then op.compute? f
  else do
    f.store.view? (op.outputs.map Pipe.data)
    return (op, f.invalidate op.outputs)

def beginRun? (op : Operator) (f : Frame) : Option (Operator × Frame) := do
  f.store.view? (op.kind.memory ++ op.kind.bins)
  return op.beginRun f

def tick? (op : Operator) (s : Store) : Option Operator := do
  s.view? op.kind.memory
  return op.tick s

end Operator

end Readout
