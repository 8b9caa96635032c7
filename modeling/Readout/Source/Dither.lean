import Readout.Value.Basic

/-!
# Dither

Extracted integers are spread over their bin by a number from the unit interval. The numbers
come from a four-word generator of the xoshiro256++ family; its words are filled from a seed by a
congruential sequence whose output is permuted by a shift and a rotation.
-/
namespace Readout

structure Dither where
  s0 : UInt64
  s1 : UInt64
  s2 : UInt64
  s3 : UInt64
deriving DecidableEq, Inhabited

namespace Dither

def rotateLeft (x k : UInt64) : UInt64 := (x <<< k) ||| (x >>> (64 - k))

def rotateRight (x k : UInt32) : UInt32 := (x >>> k) ||| (x <<< ((32 - k) % 32))

def advance (seed : UInt64) : UInt64 := seed * 6364136223846793005 + 11634580027462260723

/-- Half a word of generator state from one state of the seed sequence. -/
def permute (seed : UInt64) : UInt32 :=
  rotateRight (((seed >>> 18) ^^^ seed) >>> 27).toUInt32 (seed >>> 59).toUInt32

def word (seed : UInt64) : UInt64 × UInt64 :=
  let low := advance seed
  let high := advance low
  ((permute low).toUInt64 ||| ((permute high).toUInt64 <<< 32), high)

def ofSeed (seed : UInt64) : Dither :=
  let (s0, seed) := word seed
  let (s1, seed) := word seed
  let (s2, seed) := word seed
  let (s3, _) := word seed
  ⟨s0, s1, s2, s3⟩

def next (d : Dither) : UInt64 × Dither :=
  let result := rotateLeft (d.s0 + d.s3) 23 + d.s0
  let s2 := d.s2 ^^^ d.s0
  let s3 := d.s3 ^^^ d.s1
  let s1 := d.s1 ^^^ s2
  let s0 := d.s0 ^^^ s3
  (result, ⟨s0, s1, s2 ^^^ (d.s1 <<< 17), rotateLeft s3 45⟩)

def unit : Value := ⟨0x3ca0000000000000⟩

/-- The high 53 bits of the next word as a fraction of one. -/
def draw (d : Dither) : Value × Dither :=
  let (word, d) := d.next
  (Value.ofNat (word >>> 11).toNat * unit, d)

end Dither

end Readout
