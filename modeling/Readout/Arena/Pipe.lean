import Readout.Arena.Basic

/-!
# Pipes

A pipe carries one result through the graph: its values and, for each element, the limits that
valid values are declared to keep.
-/
namespace Readout

structure Pipe where
  data : Span
  lower : Span
  upper : Span
deriving DecidableEq, Inhabited

namespace Pipe

def length (p : Pipe) : Nat := p.data.length

def element? (p : Pipe) (i : Nat) : Option Pipe := do
  return ⟨← p.data.element? i, ← p.lower.element? i, ← p.upper.element? i⟩

/-- A new pipe without valid values. -/
def push (length : Nat) (lower upper : Value) : Alloc Pipe := do
  let data ← Arena.pushFilled length Value.invalid
  let lower ← Arena.pushFilled length lower
  let upper ← Arena.pushFilled length upper
  return ⟨data, lower, upper⟩

def copyLimits (source target : Pipe) : Alloc Unit := do
  Arena.assign target.lower (← Arena.values source.lower)
  Arena.assign target.upper (← Arena.values source.upper)

end Pipe

end Readout
