import Readout.Bytes

/-!
# Zlib streams

A stream is a header, the data in stored blocks of at most 65535 bytes, and the Adler checksum of
the data with its high byte first. The reader takes such streams apart again and ignores what
follows them.
-/
namespace Readout.Zlib

def modulus : Nat := 65521

def sums : List UInt8 → Nat × Nat → Nat × Nat
  | [], ab => ab
  | x :: rest, (a, b) =>
    let a := (a + x.toNat) % modulus
    sums rest (a, (b + a) % modulus)

def checksum (bytes : List UInt8) : Nat :=
  let (a, b) := sums bytes (1, 0)
  b * 65536 + a

def maxBlock : Nat := 65535

def block (last : Bool) (bytes : List UInt8) : List UInt8 :=
  (if last then 1 else 0) :: Bytes.encode 2 bytes.length ++
    Bytes.encode 2 (65535 - bytes.length) ++ bytes

def blocks (bytes : List UInt8) : List UInt8 :=
  if bytes.length ≤ maxBlock then block true bytes
  else block false (bytes.take maxBlock) ++ blocks (bytes.drop maxBlock)
termination_by bytes.length
decreasing_by simp [maxBlock] at *; omega

def encode (bytes : List UInt8) : List UInt8 :=
  [0x78, 0x01] ++ blocks bytes ++ (Bytes.encode 4 (checksum bytes)).reverse

def decodeBlocks : Nat → List UInt8 → Option (List UInt8 × List UInt8)
  | fuel + 1, kind :: rest =>
    let n := Bytes.decode (rest.take 2)
    let body := rest.drop 4
    if 1 < kind ∨ body.length < n then none
    else if kind = 1 then some (body.take n, body.drop n)
    else do
      let (more, tail) ← decodeBlocks fuel (body.drop n)
      return (body.take n ++ more, tail)
  | _, _ => none

def decode : List UInt8 → Option (List UInt8)
  | 0x78 :: 0x01 :: rest => do
    let (data, tail) ← decodeBlocks (rest.length + 1) rest
    if tail.take 4 = (Bytes.encode 4 (checksum data)).reverse then some data else none
  | _ => none

end Readout.Zlib
