import Readout.Arena.Basic
import Readout.Histogram.Axis
import Readout.Histogram.Filler

/-!
# Histograms over one axis

The bins live in the arena; entries inside the axis and on either side of it are counted beside
them. A NaN is not counted at all. Filling scales a coordinate by the number of bins per unit.
-/
namespace Readout

structure Histogram where
  data : Span
  axis : Axis
  /-- Bins per unit of the axis. -/
  factor : Value
  entries : Value
  underflow : Value
  overflow : Value
deriving DecidableEq

namespace Histogram

def push (bins : Nat) (axis : Axis) : Alloc Histogram := do
  if bins = 0 ∨ !axis.isProper then throw (.build (.histogram bins axis.range))
  let data ← Arena.pushSpan bins
  return ⟨data, axis, Value.ofNat bins / axis.range, Value.zero, Value.zero, Value.zero⟩

def bins (h : Histogram) : Nat := h.data.length

def bin (h : Histogram) (x : Value) : Bin := h.axis.bin h.bins x

def content (h : Histogram) (store : Store) (x : Value) : Value :=
  match h.bin x with
  | .index i => store.get h.data i
  | _ => Value.zero

def highest (h : Histogram) (store : Store) : Value :=
  (store.values h.data).foldl Value.greatest Value.zero

def highestBin (h : Histogram) (store : Store) : Nat :=
  ((store.values h.data).zipIdx.foldl
    (fun best (v, i) => if Value.below best.2 v then (i, v) else best) (0, Value.zero)).1

def clear (h : Histogram) (store : Store) : Histogram × Store :=
  ({ h with entries := Value.zero, underflow := Value.zero, overflow := Value.zero },
    store.fill h.data Value.zero)

def target (h : Histogram) (x : Value) : Bin :=
  if Value.below x h.axis.min then .under
  else if Value.atMost h.axis.max x then .over
  else .index (Nat.min ((x - h.axis.min) * h.factor).toNat (h.bins - 1))

def fill (h : Histogram) (x : Value) (f : Filler) (store : Store) : Histogram × Filler × Store :=
  if x.isNaN then (h, f, store)
  else
    match h.target x with
    | .under => ({ h with underflow := h.underflow + Value.one }, f, store)
    | .over => ({ h with overflow := h.overflow + Value.one }, f, store)
    | .index i =>
      let (f, store) := f.increment store h.data i
      ({ h with entries := h.entries + Value.one }, f, store)

end Histogram

end Readout
