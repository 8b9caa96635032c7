import Readout.Value.Basic

/-!
# Reading decimals

A decimal is read as the nearest double, ties to the even neighbour. Decimals far outside of the
range of doubles are settled by their magnitude alone.
-/
namespace Readout.Decimal

def digitValue (c : Char) : Nat := c.toNat - '0'.toNat

def ofDigits (cs : List Char) : Nat := cs.foldl (fun n c => 10 * n + digitValue c) 0

def numberOfDigits (n : Nat) : Nat := (Nat.toDigits 10 n).length

def nearest (digits : Nat) (exponent : Int) : Value :=
  let top := numberOfDigits digits + exponent
  if digits = 0 ∨ top < -400 then Value.zero
  else if 400 < top then Value.infinity
  else ⟨(Float.ofScientific digits (exponent < 0) exponent.natAbs).toBits⟩

end Readout.Decimal
