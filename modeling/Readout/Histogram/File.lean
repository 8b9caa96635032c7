import Readout.Bytes
import Readout.Histogram.Line
import Readout.Word

/-!
# Histogram files

A file holds the number of its histograms, then each of them: the number of bins, the minimum
and the range of the axis, underflow and overflow, and the bins. Counts take four bytes with a
sign, values eight.
-/
namespace Readout

inductive LayoutError
  | histogramTooLarge
  | tooManyHistograms
deriving DecidableEq

def LayoutError.message : LayoutError → String
  | histogramTooLarge => "histogram too large"
  | tooManyHistograms => "too many histograms"

namespace Histogram

def encode (store : Store) (h : Histogram) : Except LayoutError (List UInt8) :=
  if h.bins < Word.size 31 then
    return Bytes.encode 4 h.bins ++ Bytes.ofValue h.axis.min ++ Bytes.ofValue h.axis.range ++
      Bytes.ofValue h.underflow ++ Bytes.ofValue h.overflow ++
      (store.values h.data).flatMap Bytes.ofValue
  else throw .histogramTooLarge

/-- The bytes written before an error, if there is one. -/
def encodeEach (store : Store) : List Histogram → List (List UInt8) × Option LayoutError
  | [] => ([], none)
  | h :: rest =>
    match h.encode store with
    | .error e => ([], some e)
    | .ok bytes =>
      let (chunks, e) := encodeEach store rest
      (bytes :: chunks, e)

def encodeList (store : Store) (hs : List Histogram) : List (List UInt8) × Option LayoutError :=
  if hs.length < Word.size 31 then
    let (chunks, e) := encodeEach store hs
    (Bytes.encode 4 hs.length :: chunks, e)
  else ([], some .tooManyHistograms)

end Histogram

end Readout
