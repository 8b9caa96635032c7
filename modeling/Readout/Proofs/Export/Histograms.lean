import Mathlib.Data.List.TakeWhile
import Readout.Histogram.File
import Readout.Proofs.Export.Decoding
import Readout.Proofs.Store

/-!
# Reading histogram files back

A reader of a histogram file knows its layout and nothing else, so where a histogram begins depends
on the sizes of those in front of it. A count has a sign, and half of the numbers of four bytes are
lost to it. Up to there every list of histograms is read back from its file
(`Histogram.read_encodeList`); a count above is an error, and only what stands in front of it was
written.
-/
namespace Readout

namespace Reader

/-- A number of four bytes, the highest bit of which is its sign. -/
def signed : Reader Int := do
  let n ← number 4
  return if n < Word.size 31 then n else n - Word.size 32

/-- How many parts follow. -/
def count : Reader Nat := do
  let n ← signed
  if 0 ≤ n then return n.toNat else failure

end Reader

theorem Reads.count {n : Nat} (h : n < Word.size 31) :
    Reads Reader.count (Bytes.encode 4 n) n := by
  have hfits : n < 256 ^ 4 := Nat.lt_trans h (by decide)
  have hsigned : Reads Reader.signed (Bytes.encode 4 n) (n : Int) := by
    have hread := (Reads.number hfits).map (f := fun n =>
      if n < Word.size 31 then (n : Int) else (n : Int) - Word.size 32)
    rwa [if_pos h] at hread
  have hcount : Reads (if 0 ≤ (n : Int) then return (n : Int).toNat else failure) [] n := by
    rw [if_pos (Int.natCast_nonneg n)]
    exact Reads.pure n
  have hread : Reads Reader.count (Bytes.encode 4 n ++ []) n := hsigned.bind hcount
  rwa [List.append_nil] at hread

namespace Histogram

/-- What a file tells of a histogram. -/
structure Page where
  size : Nat
  axis : Axis
  underflow : Value
  overflow : Value
  bins : List Value
deriving DecidableEq

def Page.read : Reader Page := do
  let size ← Reader.count
  let min ← Reader.value
  let range ← Reader.value
  let underflow ← Reader.value
  let overflow ← Reader.value
  let bins ← Reader.many Reader.value size
  return ⟨size, ⟨min, range⟩, underflow, overflow, bins⟩

def readPages : Reader (List Page) := do
  let count ← Reader.count
  Reader.many Page.read count

/-- Reads a whole file, behind which nothing is left. -/
def decodeList (bytes : List UInt8) : Option (List Page) := do
  let (pages, rest) ← readPages bytes
  if rest = [] then return pages else none

def page (store : Store) (h : Histogram) : Page :=
  ⟨h.bins, h.axis, h.underflow, h.overflow, store.values h.data⟩

/-- The bytes of a histogram that is not too large. -/
def bytes (store : Store) (h : Histogram) : List UInt8 :=
  Bytes.encode 4 h.bins ++ Bytes.ofValue h.axis.min ++ Bytes.ofValue h.axis.range ++
    Bytes.ofValue h.underflow ++ Bytes.ofValue h.overflow ++
      (store.values h.data).flatMap Bytes.ofValue

/-- The number of bins fits its four bytes. -/
def Writable (h : Histogram) : Prop := h.bins < Word.size 31

instance (h : Histogram) : Decidable h.Writable := inferInstanceAs (Decidable (h.bins < Word.size 31))

variable {store : Store} {h : Histogram} {hs : List Histogram}

theorem encode_of_writable (hf : h.Writable) : h.encode store = .ok (h.bytes store) := by
  rw [encode, if_pos (show h.bins < Word.size 31 from hf)]
  rfl

theorem encode_of_not_writable (hf : ¬ h.Writable) : h.encode store = .error .histogramTooLarge := by
  rw [encode, if_neg (show ¬ h.bins < Word.size 31 from hf)]
  rfl

theorem encodeEach_eq (store : Store) (hs : List Histogram) :
    encodeEach store hs = ((hs.takeWhile fun h => h.Writable).map fun h => h.bytes store,
      if ∀ h ∈ hs, h.Writable then none else some .histogramTooLarge) := by
  induction hs with
  | nil => rfl
  | cons h hs ih =>
    rw [encodeEach]
    by_cases hf : h.Writable
    · rw [encode_of_writable hf, ih]
      simp [hf]
    · rw [encode_of_not_writable hf]
      simp [hf]

/-- A histogram is read back from whatever it stands in front of. -/
theorem reads_page (hf : h.Writable) : Reads Page.read (h.bytes store) (h.page store) := by
  have hbins := Reads.many fun v (_ : v ∈ store.values h.data) => Reads.value v
  rw [List.map_id', store.length_values] at hbins
  have hread : Reads Page.read _ (h.page store) :=
    (Reads.count hf).bind ((Reads.value h.axis.min).bind ((Reads.value h.axis.range).bind
      ((Reads.value h.underflow).bind ((Reads.value h.overflow).bind hbins.map))))
  simpa only [bytes, List.append_assoc] using hread

theorem reads_pages (hlen : hs.length < Word.size 31) (hf : ∀ h ∈ hs, h.Writable) :
    Reads readPages (Bytes.encode 4 hs.length ++ hs.flatMap fun h => h.bytes store)
      (hs.map fun h => h.page store) :=
  (Reads.count hlen).bind (Reads.many fun h hh => reads_page (hf h hh))

theorem decodeList_of_reads {bytes : List UInt8} {pages : List Page}
    (h : Reads readPages bytes pages) : decodeList bytes = some pages := by
  have hread := h []
  rw [List.append_nil] at hread
  rw [decodeList, hread]
  rfl

/-- A list of histograms is read back from its file: how many there are, and of each its size, its
axis, its counters and its bins, bit by bit, with no byte left over. Counts that do not fit are
errors: nothing is written if there are too many histograms, and if one of them is too large, then
the number of all and the histograms in front of it. -/
theorem read_encodeList (store : Store) (hs : List Histogram) :
    (hs.length < Word.size 31 → (∀ h ∈ hs, h.bins < Word.size 31) →
      (encodeList store hs).2 = none ∧
        decodeList (encodeList store hs).1.flatten = some (hs.map fun h => h.page store)) ∧
    (Word.size 31 ≤ hs.length → encodeList store hs = ([], some .tooManyHistograms)) ∧
    (hs.length < Word.size 31 → (∃ h ∈ hs, Word.size 31 ≤ h.bins) →
      (encodeList store hs).2 = some .histogramTooLarge ∧
        (encodeList store hs).1.flatten = Bytes.encode 4 hs.length ++
          (hs.takeWhile fun h => h.bins < Word.size 31).flatMap fun h => h.bytes store) := by
  refine ⟨fun hlen hall => ?_, fun hlen => ?_, fun hlen ⟨h, hh, hlarge⟩ => ?_⟩
  · have hwhole : (hs.takeWhile fun h => h.Writable) = hs :=
      List.takeWhile_eq_self_iff.2 fun h hh => decide_eq_true (hall h hh)
    rw [encodeList, if_pos hlen, encodeEach_eq, hwhole, if_pos (show ∀ h ∈ hs, h.Writable from hall)]
    refine ⟨rfl, decodeList_of_reads ?_⟩
    have hread : Reads readPages _ (hs.map fun h => h.page store) := reads_pages hlen hall
    rwa [List.flatMap_def] at hread
  · rw [encodeList, if_neg (Nat.not_lt.2 hlen)]
  · have hnot : ¬ ∀ h ∈ hs, h.Writable := fun hall => Nat.not_lt.2 hlarge (hall h hh)
    rw [encodeList, if_pos hlen, encodeEach_eq, if_neg hnot]
    exact ⟨rfl, by rw [List.flatten_cons, List.flatMap_def]; rfl⟩

/-- A histogram of three bins, one of them invalid, and one of none are read back from their file.
With a third one that is too large, or with too many, there is an error. -/
theorem read_encodeList_two :
    let store : Store := ⟨3, #[⟨1⟩, ⟨0x7ff0000000000007⟩]⟩
    let filled : Histogram := ⟨⟨0, 3⟩, ⟨⟨0⟩, ⟨4⟩⟩, ⟨5⟩, ⟨6⟩, ⟨7⟩, ⟨8⟩⟩
    let empty : Histogram := ⟨⟨3, 0⟩, ⟨⟨1⟩, ⟨2⟩⟩, ⟨0⟩, ⟨0⟩, ⟨0⟩, ⟨9⟩⟩
    let large : Histogram := ⟨⟨0, Word.size 31⟩, ⟨⟨0⟩, ⟨4⟩⟩, ⟨5⟩, ⟨0⟩, ⟨0⟩, ⟨0⟩⟩
    decodeList (encodeList store [filled, empty]).1.flatten =
      some [⟨3, ⟨⟨0⟩, ⟨4⟩⟩, ⟨7⟩, ⟨8⟩, [⟨1⟩, ⟨0x7ff0000000000007⟩, ⟨0⟩]⟩,
        ⟨0, ⟨⟨1⟩, ⟨2⟩⟩, ⟨0⟩, ⟨9⟩, []⟩] ∧
    (encodeList store [filled, empty, large]).2 = some .histogramTooLarge ∧
    encodeList store (List.replicate (Word.size 31) empty) = ([], some .tooManyHistograms) :=
  ⟨((read_encodeList _ _).1 (by decide) (by decide)).2,
    ((read_encodeList _ _).2.2 (by decide) ⟨_, .tail _ (.tail _ (.head _)), Nat.le_refl _⟩).1,
    (read_encodeList _ _).2.1 (by rw [List.length_replicate])⟩

end Histogram

end Readout
