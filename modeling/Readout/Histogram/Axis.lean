import Readout.Value.Basic

/-!
# Axes

An axis runs from its minimum over its range, without the end. Cut into bins it assigns to every
coordinate a bin, or tells on which side the coordinate lies.
-/
namespace Readout

structure Axis where
  min : Value
  range : Value
deriving DecidableEq

inductive Bin
  | under
  | over
  | index (i : Nat)
deriving DecidableEq

namespace Axis

def ofLimits (lower upper : Value) : Axis := ⟨lower, upper - lower⟩

def max (a : Axis) : Value := a.min + a.range

/-- An axis that spans nothing has no bins. -/
def isProper (a : Axis) : Bool := Value.below Value.zero a.range

/-- Rounding may put a coordinate next to the end one bin too far. -/
def bin (a : Axis) (bins : Nat) (x : Value) : Bin :=
  if Value.below x a.min then .under
  else if Value.atMost a.max x then .over
  else
    .index (Nat.min ((x - a.min) * Value.ofNat bins / a.range).toNat (bins - 1))

end Axis

end Readout
