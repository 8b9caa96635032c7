import Readout.Value.Basic

/-!
# Rate samplers

A sampler turns successive counter values into rates, scaled and shifted differences, and keeps
the newest of them. A counter that goes back yields no rate.
-/
namespace Readout

structure Sampler where
  scale : Value
  offset : Value
  capacity : Nat
  lastValue : Option Value
  lastRate : Value
  lastDelta : Value
  total : Nat
  history : List Value
deriving DecidableEq

namespace Sampler

def defaultCapacity : Nat := 3600

def new (scale offset : Value) (capacity : Nat) : Sampler :=
  ⟨scale, offset, capacity, none, Value.zero, Value.zero, 0, []⟩

def standard : Sampler := new Value.one Value.zero defaultCapacity

/-- A full history loses its oldest rate. -/
def record (s : Sampler) (rate : Value) : Sampler :=
  let kept := if s.history.length < s.capacity then s.history else s.history.drop 1
  { s with
    history := if s.capacity = 0 then s.history else kept ++ [rate]
    lastRate := rate
    total := s.total + 1 }

def sample (s : Sampler) (v : Value) : Sampler × Option Value :=
  match s.lastValue with
  | none => ({ s with lastValue := some v }, none)
  | some previous =>
    let delta := v - previous
    let s := { s with lastValue := some v, lastDelta := delta }
    if Value.below delta Value.zero then (s, none)
    else
      let rate := delta * s.scale + s.offset
      (s.record rate, some rate)

def clearHistory (s : Sampler) : Sampler := { s with history := [] }

def reset (s : Sampler) : Sampler := new s.scale s.offset s.capacity

end Sampler

end Readout
