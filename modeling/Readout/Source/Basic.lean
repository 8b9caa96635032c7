import Readout.Arena.Pipe
import Readout.Source.Decoder
import Readout.Source.Dither

/-!
# Sources

A source belongs to one module and keeps the hits of its decoder as parameters: the value of a
hit, spread by the dither, goes to the element of its address. Group and packed decoders fill an
element once per event and count that; the single-word decoder keeps several hits per address
and counts all of them.
-/
namespace Readout

structure Source where
  outputs : List Pipe
  /-- Hits per address since the run began. -/
  hitCounts : Span
  moduleIndex : Nat
  decoder : Decoder
  dither : Dither
  /-- Values are kept without dither. -/
  plain : Bool

/-- What a new source is told besides its decoder. -/
structure SourceOptions where
  seed : UInt64
  moduleIndex : Nat
  plain : Bool

namespace Source

def maxAddressBits : Nat := 24

def addressCount (s : Source) : Nat := s.decoder.addressCount

def checkBits (bits : Nat) : Except Error Unit :=
  if maxAddressBits < bits then throw (.build (.addressBits bits)) else return

def pushOutputs (length : Nat) (upper : Value) : Nat → Alloc (List Pipe)
  | 0 => return []
  | n + 1 => do
    let p ← Pipe.push length Value.zero upper
    return p :: (← pushOutputs length upper n)

/-- Values of so many data bits are declared to stay below the power of two above them. -/
def make (decoder : Decoder) (count length dataBits : Nat) (o : SourceOptions) : Alloc Source := do
  let outputs ← pushOutputs length (Value.powerOfTwo dataBits) count
  let hitCounts ← Arena.pushSpan decoder.addressCount
  return ⟨outputs, hitCounts, o.moduleIndex, decoder, Dither.ofSeed o.seed, o.plain⟩

def ofGroup (group : Group) (required : Nat) (o : SourceOptions) : Alloc Source := do
  if group.count = 0 then throw (.build .noPattern)
  let decoder := Decoder.group ⟨group, max required 1, 0⟩
  checkBits decoder.addressBits
  make decoder 1 decoder.addressCount (group.bits .data) o

def ofPacking (packing : Packing) (repetitions : Nat) (lowRepetition : Bool) (o : SourceOptions) :
    Alloc Source := do
  let decoder := Decoder.packed ⟨packing, max repetitions 1, lowRepetition⟩
  checkBits decoder.addressBits
  make decoder 1 decoder.addressCount (packing.group.bits .data) o

def ofPattern (p : Pattern) (shape : Shape) (maxHits : Nat) (o : SourceOptions) :
    Alloc Source := do
  if maxHits = 0 then throw (.build .noHits)
  let data := p.field .data
  let decoder := Decoder.word ⟨p, p.field .address, data, shape, maxHits⟩
  checkBits decoder.addressBits
  match shape with
  | .perHit => make decoder maxHits decoder.addressCount data.bits o
  | .perAddress => make decoder decoder.addressCount maxHits data.bits o

def beginRun (s : Source) (store : Store) : Store := store.fill s.hitCounts Value.zero

def beginEvent (s : Source) (store : Store) : Source × Store :=
  ({ s with decoder := s.decoder.restart },
    s.outputs.foldl (fun st p => st.invalidate p.data) store)

/-- The value of a hit with its dither, and the generator behind it. -/
def spread (plain : Bool) (d : Dither) (value : UInt64) : Value × Dither :=
  if plain then (Value.ofNat value.toNat + Value.zero, d)
  else
    let (x, d) := d.draw
    (Value.ofNat value.toNat + x, d)

/-- The elements that hits of one address may take, in the order in which they are taken. -/
def places (s : Source) (address : Nat) : List (Span × Nat) :=
  match s.decoder with
  | .word d =>
    match d.shape with
    | .perHit => s.outputs.map fun p => (p.data, address)
    | .perAddress =>
      match s.outputs[address]? with
      | some p => (List.range p.length).map fun i => (p.data, i)
      | none => []
  | _ => s.outputs.map fun p => (p.data, address)

/-- The single-word decoder counts hits that find no free element too. -/
def countsAll (s : Source) : Bool :=
  match s.decoder with
  | .word _ => true
  | _ => false

def record (s : Source) (store : Store) (h : Hit) : Source × Store :=
  let free := (s.places h.address).find? fun (p, i) => !(store.get p i).isValid
  let store :=
    if s.countsAll || free.isSome then store.increment s.hitCounts h.address else store
  match free with
  | none => (s, store)
  | some (p, i) =>
    let (v, dither) := spread s.plain s.dither h.value
    ({ s with dither := dither }, store.set p i v)

def recordAll (s : Source) (store : Store) : List Hit → Source × Store
  | [] => (s, store)
  | h :: rest =>
    let (s, store) := s.record store h
    s.recordAll store rest

/-- Takes the words of one module and returns the number of words used. -/
def feed (s : Source) (store : Store) (words : List UInt32) : Source × Store × Nat :=
  let (hits, decoder, used) := s.decoder.decode words
  let (s, store) := { s with decoder := decoder }.recordAll store hits
  (s, store, used)

end Source

end Readout
