import Readout.Bytes
import Readout.Error

/-!
# Records

A record names an event and a module and holds the words of the module. It is written as its
event, its module, the number of its words and the words, four bytes each. Words are read into a
buffer that is used over again, so an incomplete record leaves there what was read of it.
-/
namespace Readout

structure Record where
  event : UInt32
  moduleIndex : UInt32
  words : List UInt32
deriving DecidableEq

namespace Record

def encodeWord (w : UInt32) : List UInt8 := Bytes.encode 4 w.toNat

def encode (r : Record) : List UInt8 :=
  encodeWord r.event ++ encodeWord r.moduleIndex ++ Bytes.encode 4 r.words.length ++
    r.words.flatMap encodeWord

def encodeAll (rs : List Record) : List UInt8 := rs.flatMap encode

/-- The next word and the bytes behind it. Less than four bytes hold no word. -/
def word? : List UInt8 → Option (UInt32 × List UInt8)
  | a :: b :: c :: d :: rest => some (UInt32.ofNat (Bytes.decode [a, b, c, d]), rest)
  | _ => none

/-- Reads up to so many words and tells whether all of them were there. -/
def readWords : Nat → List UInt8 → List UInt32 × Bool × List UInt8
  | 0, bytes => ([], true, bytes)
  | n + 1, bytes =>
    match word? bytes with
    | none => ([], false, bytes)
    | some (w, rest) =>
      let (ws, whole, rest) := readWords n rest
      (w :: ws, whole, rest)

inductive Outcome
  | finished
  | record (event moduleIndex : UInt32)
  | truncated (part : RecordPart)
deriving DecidableEq

/-- Reads one record. Returns what the buffer holds afterwards and the remaining bytes. A stream
that ends inside of the first word of a record counts as finished. -/
def read (buffer : List UInt32) (bytes : List UInt8) : Outcome × List UInt32 × List UInt8 :=
  match word? bytes with
  | none => (.finished, buffer, bytes)
  | some (event, bytes) =>
    match word? bytes with
    | none => (.truncated .moduleIndex, buffer, bytes)
    | some (moduleIndex, bytes) =>
      match word? bytes with
      | none => (.truncated .wordCount, buffer, bytes)
      | some (count, bytes) =>
        let (ws, whole, bytes) := readWords count.toNat bytes
        (if whole then .record event moduleIndex else .truncated .dataWord, ws, bytes)

/-- The whole records of a stream, the part that the stream breaks off in, if it does, and what
the buffer holds in the end. -/
def readAll : Nat → List UInt32 → List UInt8 → List Record × Option RecordPart × List UInt32
  | 0, buffer, _ => ([], none, buffer)
  | fuel + 1, buffer, bytes =>
    match read buffer bytes with
    | (.finished, buffer, _) => ([], none, buffer)
    | (.truncated part, buffer, _) => ([], some part, buffer)
    | (.record event moduleIndex, ws, rest) =>
      let (rs, part, buffer) := readAll fuel ws rest
      (⟨event, moduleIndex, ws⟩ :: rs, part, buffer)

/-- Every record takes bytes, so there are no more records than bytes. -/
def decode (bytes : List UInt8) : List Record × Option RecordPart × List UInt32 :=
  readAll (bytes.length + 1) [] bytes

end Record

end Readout
