import Readout.Value.Basic
import Readout.Decimal.Shortest

/-!
# Text of values

A value is written with the fewest digits that read back, always in positional notation. The
second form, used by documents, switches to an exponent outside of 1e-5 to 1e16 and marks whole
numbers with `.0`.
-/
namespace Readout

def zeros (n : Nat) : String := String.ofList (List.replicate n '0')

namespace Decimal.Digits

def positional (d : Digits) : String :=
  let ds := toString d.digits
  if 0 ≤ d.exponent then ds ++ zeros d.exponent.toNat
  else
    let places := (-d.exponent).toNat
    if places < ds.length then
      (ds.take (ds.length - places)).toString ++ "." ++ (ds.drop (ds.length - places)).toString
    else "0." ++ zeros (places - ds.length) ++ ds

def scientific (d : Digits) : String :=
  let ds := toString d.digits
  let rest := (ds.drop 1).toString
  (ds.take 1).toString ++ (if rest.isEmpty then "" else "." ++ rest) ++ "e" ++
    toString (d.exponent + ds.length - 1)

end Decimal.Digits

namespace Value

def sign (v : Value) : String := if v.bits &&& signBit == 0 then "" else "-"

def text (v : Value) : String :=
  if v.isNaN then "NaN"
  else if v.isInfinite then v.sign ++ "inf"
  else if v.isZero then v.sign ++ "0"
  else v.sign ++ (Decimal.Binary.ofBits (v.bits &&& magnitudeMask)).shortest.positional

def documentText (v : Value) : String :=
  if v.isZero then v.sign ++ "0.0"
  else
    let d := (Decimal.Binary.ofBits (v.bits &&& magnitudeMask)).shortest
    let point := d.exponent + (toString d.digits).length
    v.sign ++
      if -5 < point ∧ point ≤ 16 then
        if 0 ≤ d.exponent then d.positional ++ ".0" else d.positional
      else d.scientific

end Value

end Readout
