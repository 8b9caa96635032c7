import Readout.Value.Basic

/-!
# Byte order

Numbers in files and streams are little-endian.
-/
namespace Readout.Bytes

/-- The lowest `count` bytes of a number, the lowest one first. -/
def encode : Nat → Nat → List UInt8
  | 0, _ => []
  | count + 1, n => UInt8.ofNat n :: encode count (n / 256)

def decode : List UInt8 → Nat
  | [] => 0
  | b :: rest => b.toNat + 256 * decode rest

def ofValue (v : Value) : List UInt8 := encode 8 v.bits.toNat

end Readout.Bytes
