import Readout.Arena.Basic
import Readout.Histogram.Axis
import Readout.Histogram.Filler
import Readout.Word

/-!
# Histograms over two axes

The bins are stored row by row. A pair with a coordinate below its axis counts as underflow, any
other pair outside of the plane as overflow. The number of bins is a 64-bit product.
-/
namespace Readout

structure PlaneHistogram where
  data : Span
  x : Axis
  y : Axis
  xBins : Nat
  yBins : Nat
  entries : Value
  underflow : Value
  overflow : Value
deriving DecidableEq

namespace PlaneHistogram

def push (xBins yBins : Nat) (x y : Axis) : Alloc PlaneHistogram := do
  if xBins = 0 ∨ yBins = 0 ∨ !x.isProper ∨ !y.isProper then throw (.build .planeHistogram)
  let data ← Arena.pushSpan (xBins * yBins % Word.size 64)
  return ⟨data, x, y, xBins, yBins, Value.zero, Value.zero, Value.zero⟩

def cell (h : PlaneHistogram) (xBin yBin : Nat) : Nat := (yBin * h.xBins + xBin) % Word.size 64

def content (h : PlaneHistogram) (store : Store) (x y : Value) : Value :=
  match h.x.bin h.xBins x, h.y.bin h.yBins y with
  | .index i, .index j => store.get h.data (h.cell i j)
  | _, _ => Value.zero

def clear (h : PlaneHistogram) (store : Store) : PlaneHistogram × Store :=
  ({ h with entries := Value.zero, underflow := Value.zero, overflow := Value.zero },
    store.fill h.data Value.zero)

def fill (h : PlaneHistogram) (x y : Value) (f : Filler) (store : Store) :
    PlaneHistogram × Filler × Store :=
  if x.isNaN || y.isNaN then (h, f, store)
  else
    match h.x.bin h.xBins x, h.y.bin h.yBins y with
    | .index i, .index j =>
      let (f, store) := f.increment store h.data (h.cell i j)
      ({ h with entries := h.entries + Value.one }, f, store)
    | .under, _ | _, .under => ({ h with underflow := h.underflow + Value.one }, f, store)
    | _, _ => ({ h with overflow := h.overflow + Value.one }, f, store)

end PlaneHistogram

end Readout
