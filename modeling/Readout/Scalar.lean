import Readout.Value.Basic

/-!
# Scalars

The arithmetic that windows, polygons, aggregates and calibrations are written over. Double
precision values are one instance; a field with exact arithmetic is another, in which statements
about limits and shapes are free of rounding.
-/
namespace Readout

class Scalar (α : Type) extends Add α, Sub α, Mul α, Div α where
  zero : α
  /-- The zero that sums start from. Adding it changes no number, minus zero included. -/
  neutral : α
  ofNat : Nat → α
  sqrt : α → α
  below : α → α → Bool
  atMost : α → α → Bool
  isZero : α → Bool

instance : Scalar Value where
  zero := Value.zero
  neutral := -Value.zero
  ofNat := Value.ofNat
  sqrt := Value.sqrt
  below := Value.below
  atMost := Value.atMost
  isZero := Value.isZero

end Readout
