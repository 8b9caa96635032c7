import Readout.Graph.Basic

/-!
# Runs

A run begins, takes events and ticks, and ends. An event begins with empty sources, takes the
words of its modules and ends with a step of all its operators in running order; after that the
queued bins are incremented. Events outside of the graph are passed over.
-/
namespace Readout.Graph

def frame (g : Graph) (s : Slot) : Frame := ⟨g.arena.store, s.bits, g.filler, g.volume⟩

/-- Takes back what a frame has become, all but its condition bits. -/
def withFrame (g : Graph) (f : Frame) : Graph :=
  { g with
    arena := { g.arena with store := f.store }
    filler := f.filler
    volume := f.volume }

def withStore (g : Graph) (store : Store) : Graph :=
  { g with arena := { g.arena with store := store } }

def onSlot (g : Graph) (event : Nat) (f : Graph → Slot → Graph × Slot) : Graph :=
  match g.slots[event]? with
  | none => g
  | some s =>
    let (g, s) := f g s
    { g with slots := g.slots.set event s }

def onSlots (g : Graph) (f : Graph → Slot → Graph × Slot) : Graph :=
  (List.range g.slots.length).foldl (fun g i => g.onSlot i f) g

def beginRunSlot (g : Graph) (s : Slot) : Graph × Slot :=
  let (sources, store) := Slot.mapSources (fun n st => (n, n.beginRun st)) s.sources g.arena.store
  let g := g.withStore store
  let (operators, f) := Slot.mapOperators Operator.beginRun s.operators (g.frame s)
  (g.withFrame f, ⟨sources, operators, s.bits.clear⟩)

def beginRun (g : Graph) : Graph :=
  { g.onSlots beginRunSlot with running := true, events := 0, ticks := 0 }

def beginEventSlot (g : Graph) (s : Slot) : Graph × Slot :=
  let (sources, store) := Slot.mapSources Source.beginEvent s.sources g.arena.store
  (g.withStore store, { s with sources := sources, bits := s.bits.clear })

def beginEvent (g : Graph) (event : Nat) : Graph := g.onSlot event beginEventSlot

def feedSlot (moduleIndex : Nat) (words : List UInt32) (g : Graph) (s : Slot) : Graph × Slot :=
  let (sources, store) := Slot.feedSources moduleIndex words s.sources g.arena.store
  (g.withStore store, { s with sources := sources })

def feed (g : Graph) (event moduleIndex : Nat) (words : List UInt32) : Graph :=
  g.onSlot event (feedSlot moduleIndex words)

def endEventSlot (g : Graph) (s : Slot) : Graph × Slot :=
  let (operators, f) := Slot.mapOperators Operator.step s.operators (g.frame s)
  let (filler, store) := f.filler.flush f.store
  let g := g.withFrame { f with filler := filler, store := store }
  ({ g with events := g.events + 1 }, { s with operators := operators, bits := f.bits })

def endEvent (g : Graph) (event : Nat) : Graph := g.onSlot event endEventSlot

def tickSlot (g : Graph) (s : Slot) : Graph × Slot :=
  let (operators, _) :=
    Slot.mapOperators (fun op f => (op.tick f.store, f)) s.operators (g.frame s)
  (g, { s with operators := operators })

def tick (g : Graph) : Graph := { g.onSlots tickSlot with ticks := g.ticks + 1 }

def endRunSlot (g : Graph) (s : Slot) : Graph × Slot :=
  let (operators, f) := Slot.mapOperators Operator.endRun s.operators (g.frame s)
  (g.withFrame f, { s with operators := operators })

def endRun (g : Graph) : Graph := { g.onSlots endRunSlot with running := false }

end Readout.Graph
