import Readout.Proofs.Record.Stream

/-!
# Reading one record after the other

Each read takes over the buffer from the one before it. A whole record replaces what the buffer
held, so the buffer shows the words of exactly the record that was read (`readTimes_encodeAll`),
and at the end of a stream it stays as it is, however often reading is tried again.
-/
namespace Readout

namespace Record

/-- Reads so many times into one buffer. Gives each outcome with what the buffer held then, and
the buffer and the bytes that are left in the end. -/
def readTimes : Nat → List UInt32 → List UInt8 →
    List (Outcome × List UInt32) × List UInt32 × List UInt8
  | 0, buffer, bytes => ([], buffer, bytes)
  | n + 1, buffer, bytes =>
    let (outcome, buffer, rest) := read buffer bytes
    let (seen, buffer', rest) := readTimes n buffer rest
    ((outcome, buffer) :: seen, buffer', rest)

/-- What a read shows that finds this record. -/
def shown (r : Record) : Outcome × List UInt32 := (.record r.event r.moduleIndex, r.words)

/-- What a buffer holds after these records were read into it. -/
def lastWords (buffer : List UInt32) (rs : List Record) : List UInt32 :=
  rs.foldl (fun _ r => r.words) buffer

section Times

variable {rs : List Record} {bytes : List UInt8}

theorem readTimes_add (n m : Nat) (buffer : List UInt32) (bytes : List UInt8) :
    readTimes (n + m) buffer bytes =
      let (seen, buffer, rest) := readTimes n buffer bytes
      let (seen', buffer, rest) := readTimes m buffer rest
      (seen ++ seen', buffer, rest) := by
  induction n generalizing buffer bytes with
  | zero => rw [Nat.zero_add]; rfl
  | succ n ih => simp only [Nat.succ_add, readTimes, ih, List.cons_append]

theorem readTimes_encodeAll (hrs : ∀ r ∈ rs, Whole r) (buffer : List UInt32) (rest : List UInt8) :
    readTimes rs.length buffer (encodeAll rs ++ rest) =
      (rs.map shown, lastWords buffer rs, rest) := by
  induction rs generalizing buffer with
  | nil => rfl
  | cons r rs ih =>
    have hr : Whole r := hrs r List.mem_cons_self
    have hrest := ih (fun q hq => hrs q (List.mem_cons_of_mem r hq)) r.words
    rw [encodeAll_cons, List.length_cons, readTimes, read_encode hr]
    simp only [hrest]
    rfl

theorem readTimes_of_short (n : Nat) (buffer : List UInt32) (h : bytes.length < 4) :
    readTimes n buffer bytes = (List.replicate n (.finished, buffer), buffer, bytes) := by
  induction n with
  | zero => rfl
  | succ n ih =>
    have hread : read buffer bytes = (.finished, buffer, bytes) := by
      simp [read, word?_eq_none_iff.2 h]
    simp only [readTimes, hread, ih, List.replicate_succ]

end Times

theorem encodeAll_append (rs qs : List Record) :
    encodeAll (rs ++ qs) = encodeAll rs ++ encodeAll qs :=
  List.flatMap_append

/-- The part of a stream in front of a boundary between records is made of the records that the
boundary is behind. -/
theorem eq_encodeAll_take {rs : List Record} {part : List UInt8} {k : Nat}
    (hpart : part <+: encodeAll rs) (h : part.length = (encodeAll (rs.take k)).length) :
    part = encodeAll (rs.take k) := by
  have htake : encodeAll (rs.take k) <+: encodeAll rs := by
    conv_rhs => rw [← List.take_append_drop k rs, encodeAll_append]
    exact List.prefix_append _ _
  exact (List.prefix_of_prefix_length_le hpart htake h.le).eq_of_length h

/-- Reading a stream, or the part of it in front of a boundary between two records, finds each
record that was written there with its own words and nothing else in the buffer, and from then on
it finds the end, however often it is tried. -/
theorem readTimes_stream (rs : List Record) (hrs : ∀ r ∈ rs, Whole r) (part : List UInt8)
    (hpart : part <+: encodeAll rs) (k : Nat) (hk : part.length = (encodeAll (rs.take k)).length)
    (buffer : List UInt32) :
    (∀ further, readTimes ((rs.take k).length + further) buffer part =
      ((rs.take k).map shown ++
          List.replicate further (.finished, lastWords buffer (rs.take k)),
        lastWords buffer (rs.take k), [])) ∧
    ∃ buffer', readAll (part.length + 1) buffer part = (rs.take k, none, buffer') := by
  have hwhole : ∀ r ∈ rs.take k, Whole r := fun r hr => hrs r (List.mem_of_mem_take hr)
  have hend : ([] : List UInt8).length < 4 := by decide
  obtain rfl := eq_encodeAll_take hpart hk
  constructor
  · intro further
    have hread := readTimes_encodeAll hwhole buffer []
    rw [List.append_nil] at hread
    rw [readTimes_add, hread]
    simp only [readTimes_of_short further (lastWords buffer (rs.take k)) hend]
  · have hall := readAll_encodeAll hwhole hend (encodeAll (rs.take k)).length.succ buffer
    rw [List.append_nil] at hall
    exact hall (Nat.lt_succ_self _)

/-- The first of two records is read into a buffer that still holds longer words. -/
theorem readTimes_stream_first :
    readTimes 2 [7, 7, 7] (encode ⟨1, 2, [57005, 48879]⟩) =
      ([(.record 1 2, [57005, 48879]), (.finished, [57005, 48879])], [57005, 48879], []) :=
  (readTimes_stream [⟨1, 2, [57005, 48879]⟩, ⟨1, 5, []⟩] (by decide)
    (encode ⟨1, 2, [57005, 48879]⟩) (by decide) 1 (by decide) [7, 7, 7]).1 1

end Record

end Readout
