import Readout.Arena.Store

/-!
# Filling bins

Bins are incremented at once, or queued during an event and incremented together at its end. A
queue that is full falls back to incrementing at once.
-/
namespace Readout

inductive FillStrategy
  | direct
  | batched
deriving DecidableEq, Inhabited

/-- The bin queued last comes first. -/
structure Filler where
  strategy : FillStrategy
  capacity : Nat
  queue : List Span
deriving DecidableEq

namespace Filler

def new (strategy : FillStrategy) (capacity : Nat) : Filler :=
  match strategy with
  | .direct => ⟨.direct, 0, []⟩
  | .batched => ⟨.batched, capacity, []⟩

def pending (f : Filler) : Nat := f.queue.length

def reserve (f : Filler) (bins : Nat) : Filler :=
  match f.strategy with
  | .direct => f
  | .batched => { f with capacity := max f.capacity bins }

def increment (f : Filler) (store : Store) (data : Span) (bin : Nat) : Filler × Store :=
  match data.element? bin with
  | none => (f, store)
  | some cell =>
    if f.strategy = .batched ∧ f.pending < f.capacity then
      ({ f with queue := cell :: f.queue }, store)
    else (f, store.increment cell 0)

def flush (f : Filler) (store : Store) : Filler × Store :=
  ({ f with queue := [] }, f.queue.foldr (fun cell st => st.increment cell 0) store)

end Filler

end Readout
