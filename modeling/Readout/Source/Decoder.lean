import Readout.Pattern.Packing
import Readout.Word

/-!
# Decoders

A decoder turns the words of a module into hits, each an address and a value. The group decoder
collects words until its group is complete and reports every so many completions; the packed
decoder applies a packing several times in a row, where the number of the application joins the
address; the single-word decoder reports every word that fits its pattern.
-/
namespace Readout

structure Hit where
  address : Nat
  value : UInt64
deriving DecidableEq

/-- Reports one completion out of `required`. -/
structure GroupDecoder where
  group : Group
  required : Nat
  completed : Nat
deriving DecidableEq

namespace GroupDecoder

def addressBits (d : GroupDecoder) : Nat := d.group.bits .address

def hit (g : Group) : Hit := ⟨(g.extract .address).toNat, g.extract .data⟩

def step (d : GroupDecoder) (word : UInt32) (index : Nat) : Option Hit × GroupDecoder :=
  let g := d.group.offer word index
  if !g.complete then (none, { d with group := g })
  else if d.completed + 1 < d.required then
    (none, { d with group := g.release, completed := d.completed + 1 })
  else (some (hit g), { d with group := g.release, completed := 0 })

def decodeFrom (index : Nat) : List UInt32 → GroupDecoder → List Hit × GroupDecoder
  | [], d => ([], d)
  | w :: rest, d =>
    let (h, d) := d.step w index
    let (hs, d) := decodeFrom (index + 1) rest d
    (h.toList ++ hs, d)

/-- Forgets words that wait for the rest of their group. -/
def restart (d : GroupDecoder) : GroupDecoder :=
  { d with group := d.group.release, completed := 0 }

end GroupDecoder

structure PackedDecoder where
  packing : Packing
  repetitions : Nat
  lowRepetition : Bool
deriving DecidableEq

namespace PackedDecoder

/-- Bits that number so many repetitions. -/
def repetitionBits (d : PackedDecoder) : Nat :=
  if d.repetitions ≤ 1 then 0 else (d.repetitions - 1).log2 + 1

def baseBits (d : PackedDecoder) : Nat := d.packing.group.bits .address

def addressBits (d : PackedDecoder) : Nat := d.baseBits + d.repetitionBits

/-- The repetition stands above the filter's own address bits, or below them. -/
def compose (d : PackedDecoder) (address repetition : Nat) : Nat :=
  if d.lowRepetition then address <<< d.repetitionBits ||| repetition
  else address ||| repetition <<< d.baseBits

def hit? (d : PackedDecoder) (repetition : Nat) (words : List UInt32) : Option Hit := do
  let combined := d.packing.combine words
  let address ← d.packing.extract? combined .address
  let value ← d.packing.extract? combined .data
  return ⟨d.compose address.toNat repetition, value⟩

/-- Stops at the first repetition that lacks words. Returns the number of words used. -/
def decodeFrom (d : PackedDecoder) (repetition : Nat) : Nat → List UInt32 → List Hit × Nat
  | 0, _ => ([], 0)
  | left + 1, words =>
    let n := d.packing.wordCount
    if words.length < n then ([], 0)
    else
      let (hs, used) := d.decodeFrom (repetition + 1) left (words.drop n)
      ((d.hit? repetition (words.take n)).toList ++ hs, n + used)

end PackedDecoder

/-- How hits of one address are arranged: over the outputs, or inside one output. -/
inductive Shape
  | perHit
  | perAddress
deriving DecidableEq

structure WordDecoder where
  pattern : Pattern
  address : Field
  data : Field
  shape : Shape
  maxHits : Nat
deriving DecidableEq

namespace WordDecoder

def hit? (d : WordDecoder) (word : UInt32) (index : Nat) : Option Hit :=
  if d.pattern.accepts word index then
    some ⟨(d.address.extract word).toNat, (d.data.extract word).toUInt64⟩
  else none

def decodeFrom (d : WordDecoder) (index : Nat) : List UInt32 → List Hit
  | [] => []
  | w :: rest => (d.hit? w index).toList ++ d.decodeFrom (index + 1) rest

end WordDecoder

inductive Decoder
  | group (d : GroupDecoder)
  | packed (d : PackedDecoder)
  | word (d : WordDecoder)
deriving DecidableEq

namespace Decoder

def addressBits : Decoder → Nat
  | group d => d.addressBits
  | packed d => d.addressBits
  | word d => d.address.bits

def addressCount (d : Decoder) : Nat := Word.size d.addressBits

def name : Decoder → String
  | group _ => "extractor"
  | packed _ => "listfilter_extractor"
  | word _ => "multihit_extractor"

def restart : Decoder → Decoder
  | group d => group d.restart
  | d => d

/-- The hits of a word list, the decoder after it, and the number of words used. -/
def decode : Decoder → List UInt32 → List Hit × Decoder × Nat
  | group d, words =>
    let (hs, d) := d.decodeFrom 0 words
    (hs, group d, words.length)
  | packed d, words =>
    let (hs, used) := d.decodeFrom 0 d.repetitions words
    (hs, packed d, used)
  | word d, words => (d.decodeFrom 0 words, word d, words.length)

end Decoder

end Readout
