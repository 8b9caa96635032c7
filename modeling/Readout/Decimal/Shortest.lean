import Readout.Word

/-!
# Shortest decimals

Every finite binary number owns the interval of reals that round to it. The shortest decimal of
the number is the one with the fewest digits inside that interval, and of two such decimals the
nearer one, the larger one on a tie. The search walks the decimal grids from coarse to fine and
tests the two grid points next to the number in exact natural arithmetic, since an interval that
holds a grid point holds one of these two.
-/
namespace Readout.Decimal

/-- The positive number `mantissa * 2 ^ exponent` of a double. -/
structure Binary where
  mantissa : Nat
  exponent : Int

/-- Reads the magnitude of a finite, non-zero double. -/
def Binary.ofBits (bits : UInt64) : Binary :=
  let fraction : Nat := bits.toNat % Word.size 52
  let field : Nat := bits.toNat / Word.size 52 % Word.size 11
  if field = 0 then ⟨fraction, -1074⟩ else ⟨fraction + Word.size 52, (field : Int) - 1075⟩

/-- A number and the ends of its rounding interval over one denominator. -/
structure Rounding where
  low : Nat
  value : Nat
  high : Nat
  denominator : Nat
  closed : Bool

/-- The gap below a power of two is half as wide as the one above it. -/
def Binary.rounding (b : Binary) : Rounding :=
  let down := if b.mantissa = Word.size 52 ∧ b.exponent ≠ -1074 then 1 else 2
  let up := Nat.pow 2 (b.exponent - 2).toNat
  { low := (4 * b.mantissa - down) * up
    value := 4 * b.mantissa * up
    high := (4 * b.mantissa + 2) * up
    denominator := Nat.pow 2 (2 - b.exponent).toNat
    closed := b.mantissa % 2 = 0 }

structure Digits where
  digits : Nat
  exponent : Int
deriving DecidableEq

/-- Measures the interval in units of `10 ^ k`. -/
def Rounding.inUnits (r : Rounding) (k : Int) : Rounding :=
  let grow := Nat.pow 10 (-k).toNat
  { r with
    low := r.low * grow
    value := r.value * grow
    high := r.high * grow
    denominator := r.denominator * Nat.pow 10 k.toNat }

def Rounding.holds (r : Rounding) (n : Nat) : Bool :=
  let x := n * r.denominator
  if r.closed then r.low ≤ x && x ≤ r.high else r.low < x && x < r.high

/-- The nearest whole number of units inside the interval. -/
def Rounding.nearest? (r : Rounding) : Option Nat :=
  let floor := r.value / r.denominator
  match r.holds floor, r.holds (floor + 1) with
  | true, true =>
    if 2 * (r.value % r.denominator) < r.denominator then some floor else some (floor + 1)
  | true, false => some floor
  | false, true => some (floor + 1)
  | false, false => none

/-- The least power of ten above the number, searched upwards from an exponent below it. -/
def Rounding.magnitude (r : Rounding) : Nat → Int → Int
  | 0, e => e
  | fuel + 1, e =>
    let u := r.inUnits e
    if u.value < u.denominator then e else r.magnitude fuel (e + 1)

def Rounding.search (r : Rounding) (top : Int) : Nat → Nat → Digits
  | 0, n => ⟨(r.inUnits (top - n)).value / (r.inUnits (top - n)).denominator, top - n⟩
  | fuel + 1, n =>
    match (r.inUnits (top - n)).nearest? with
    | some d => ⟨d, top - n⟩
    | none => r.search top fuel (n + 1)

/-- Digits that end in zero move the zero into the exponent. -/
def Digits.trim : Nat → Digits → Digits
  | 0, d => d
  | fuel + 1, d =>
    if d.digits ≠ 0 ∧ d.digits % 10 = 0 then Digits.trim fuel ⟨d.digits / 10, d.exponent + 1⟩ else d

/-- A decimal exponent below that of the number, from its binary logarithm. -/
def Binary.exponentBelow (b : Binary) : Int :=
  ((b.mantissa.log2 : Int) + b.exponent) * 1233 / 4096 - 1

def Binary.shortest (b : Binary) : Digits :=
  let r := b.rounding
  ((r.search (r.magnitude 8 b.exponentBelow) 18 1)).trim 20

end Readout.Decimal
