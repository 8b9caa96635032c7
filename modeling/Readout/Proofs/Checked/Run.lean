import Readout.Proofs.Checked.Range
import Readout.Proofs.Checked.Source
import Readout.Proofs.Graph.Runs

/-!
# Checked runs

A checked run makes the same calls with checked nodes. As calls do not change the layout of a graph,
nodes that are in range at first stay so, and a checked run of such a graph never stops. What lies
in an arena lies in its store, and a view lies in its pipe, so the nodes of a plan, all of whose
spans were taken from one arena, are in range in the graph that it is built into.
-/
namespace Readout

/-- The store of the frame has so many slots, and the bins that wait in the queue lie in it. -/
structure Frame.Holds (slots : Nat) (f : Frame) : Prop where
  slots_eq : f.store.slots = slots
  fits : f.filler.Fits slots

namespace Slot

def mapOperators? (f : Operator → Frame → Option (Operator × Frame)) :
    List (Numbered RankedOperator) → Frame → Option (List (Numbered RankedOperator) × Frame)
  | [], fr => some ([], fr)
  | n :: rest, fr => do
    let (op, fr) ← f n.node.operator fr
    let (rest, fr) ← mapOperators? f rest fr
    return ({ n with node := { n.node with operator := op } } :: rest, fr)

def mapSources? (f : Source → Store → Option (Source × Store)) :
    List (Numbered Source) → Store → Option (List (Numbered Source) × Store)
  | [], st => some ([], st)
  | n :: rest, st => do
    let (s, st) ← f n.node st
    let (rest, st) ← mapSources? f rest st
    return ({ n with node := s } :: rest, st)

def feedSources? (moduleIndex : Nat) (words : List UInt32) :
    List (Numbered Source) → Store → Option (List (Numbered Source) × Store)
  | [], st => some ([], st)
  | n :: rest, st =>
    if n.node.moduleIndex = moduleIndex then do
      let (s, st, _) ← n.node.feed? st words
      let (rest, st) ← feedSources? moduleIndex words rest st
      return ({ n with node := s } :: rest, st)
    else if moduleIndex < n.node.moduleIndex then some (n :: rest, st)
    else do
      let (rest, st) ← feedSources? moduleIndex words rest st
      return (n :: rest, st)

structure InRange (slots : Nat) (s : Slot) : Prop where
  sources : ∀ n ∈ s.sources, n.node.InRange slots
  operators : ∀ n ∈ s.operators, n.node.operator.InRange slots

theorem InRange.of_resting {slots : Nat} {s s' : Slot} (h : InRange slots s)
    (hr : s'.resting = s.resting) : InRange slots s' := by
  have hmem : ∀ {α β : Type} {f : α → β} {xs ys : List α} {P : β → Prop}, xs.map f = ys.map f →
      (∀ y ∈ ys, P (f y)) → ∀ x ∈ xs, P (f x) := by
    intro α β f xs ys P hxy hP x hx
    have hfx : f x ∈ ys.map f := hxy ▸ List.mem_map_of_mem hx
    obtain ⟨y, hy, hyx⟩ := List.mem_map.1 hfx
    exact hyx ▸ hP y hy
  constructor
  · intro n hn
    have hall := hmem (P := fun n : Numbered Source => n.node.InRange slots)
      (congrArg Slot.sources hr) (fun m hm => Source.InRange.map_resting.2 (h.sources m hm)) n hn
    exact Source.InRange.map_resting.1 hall
  · intro n hn
    have hall := hmem (P := fun n : Numbered RankedOperator => n.node.operator.InRange slots)
      (congrArg Slot.operators hr)
      (fun m hm => Operator.InRange.map_resting.2 (h.operators m hm)) n hn
    exact Operator.InRange.map_resting.1 hall

theorem mapOperators?_eq (φ? : Operator → Frame → Option (Operator × Frame))
    {φ : Operator → Frame → Operator × Frame} {slots : Nat}
    (hφ : ∀ op f, op.InRange f.store.slots → f.Holds f.store.slots →
      φ? op f = some (φ op f) ∧ (φ op f).2.Holds f.store.slots)
    {ns : List (Numbered RankedOperator)} (hn : ∀ n ∈ ns, n.node.operator.InRange slots)
    {f : Frame} (hf : f.Holds slots) :
    mapOperators? φ? ns f = some (mapOperators φ ns f) ∧ (mapOperators φ ns f).2.Holds slots := by
  obtain rfl := hf.slots_eq
  have hrun : ∀ (ns : List (Numbered RankedOperator)) (g : Frame), g.Holds f.store.slots →
      (∀ n ∈ ns, n.node.operator.InRange f.store.slots) →
      mapOperators? φ? ns g = some (mapOperators φ ns g) ∧
        (mapOperators φ ns g).2.Holds f.store.slots := by
    intro ns
    induction ns with
    | nil => exact fun g hg _ => ⟨rfl, hg⟩
    | cons n ns ih =>
      intro g hg hn
      obtain ⟨hop, hns⟩ := List.forall_mem_cons.1 hn
      have hgs := hg.slots_eq
      rw [← hgs] at hop hg
      obtain ⟨heq, hnext⟩ := hφ n.node.operator g hop hg
      rw [hgs] at hnext
      obtain ⟨hrest, hlast⟩ := ih _ hnext hns
      refine ⟨?_, hlast⟩
      rw [mapOperators?, heq]
      simp only [Option.bind_eq_bind, Option.bind_some, hrest]
      rfl
  exact hrun ns f hf hn

theorem mapPhase?_eq (φ? : Operator → Frame → Option (Operator × Frame))
    {φ : Operator → Frame → Operator × Frame} {slots : Nat} (hφ : Operator.Phase φ)
    (heq : ∀ op f, op.InRange f.store.slots → φ? op f = some (φ op f))
    {ns : List (Numbered RankedOperator)} (hn : ∀ n ∈ ns, n.node.operator.InRange slots)
    {f : Frame} (hf : f.Holds slots) :
    mapOperators? φ? ns f = some (mapOperators φ ns f) ∧ (mapOperators φ ns f).2.Holds slots := by
  refine mapOperators?_eq φ? (fun op f hop hf => ⟨heq op f hop, hφ.slots op f, ?_⟩) hn hf
  rw [hφ.filler op f]
  exact hf.fits

theorem mapSources?_eq (φ? : Source → Store → Option (Source × Store))
    (φ : Source → Store → Source × Store) {slots : Nat}
    (hφ : ∀ s st, s.InRange st.slots → φ? s st = some (φ s st))
    (hslots : ∀ s st, (φ s st).2.slots = st.slots) {ns : List (Numbered Source)}
    (hn : ∀ n ∈ ns, n.node.InRange slots) {st : Store} (hst : st.slots = slots) :
    mapSources? φ? ns st = some (mapSources φ ns st) := by
  induction ns generalizing st with
  | nil => rfl
  | cons n ns ih =>
    obtain ⟨hs, hns⟩ := List.forall_mem_cons.1 hn
    have hrest := ih hns ((hslots n.node st).trans hst)
    rw [mapSources?, hφ n.node st (hst.symm ▸ hs)]
    simp only [Option.bind_eq_bind, Option.bind_some, hrest]
    rfl

theorem feedSources?_eq (moduleIndex : Nat) (words : List UInt32) {ns : List (Numbered Source)}
    {slots : Nat} (hn : ∀ n ∈ ns, n.node.InRange slots) {st : Store} (hst : st.slots = slots) :
    feedSources? moduleIndex words ns st = some (feedSources moduleIndex words ns st) := by
  induction ns generalizing st with
  | nil => rfl
  | cons n ns ih =>
    obtain ⟨hs, hns⟩ := List.forall_mem_cons.1 hn
    rw [feedSources?, feedSources]
    split
    · have hrest := ih hns ((n.node.slots_feed st words).trans hst)
      have hin : n.node.InRange st.slots := hst.symm ▸ hs
      rw [hin.feed?_eq words]
      simp only [Option.bind_eq_bind, Option.bind_some, hrest]
      rfl
    · split
      · rfl
      · simp only [ih hns hst, Option.bind_eq_bind, Option.bind_some]
        rfl

end Slot

namespace Graph

def onSlot? (g : Graph) (event : Nat) (f : Graph → Slot → Option (Graph × Slot)) : Option Graph :=
  match g.slots[event]? with
  | none => some g
  | some s => do
    let (g, s) ← f g s
    return { g with slots := g.slots.set event s }

def onSlots? (g : Graph) (f : Graph → Slot → Option (Graph × Slot)) : Option Graph :=
  (List.range g.slots.length).foldlM (fun g i => g.onSlot? i f) g

def beginRunSlot? (g : Graph) (s : Slot) : Option (Graph × Slot) := do
  let (sources, store) ←
    Slot.mapSources? (fun n st => do return (n, ← n.beginRun? st)) s.sources g.arena.store
  let g := g.withStore store
  let (operators, f) ← Slot.mapOperators? Operator.beginRun? s.operators (g.frame s)
  return (g.withFrame f, ⟨sources, operators, s.bits.clear⟩)

def beginEventSlot? (g : Graph) (s : Slot) : Option (Graph × Slot) := do
  let (sources, store) ← Slot.mapSources? Source.beginEvent? s.sources g.arena.store
  return (g.withStore store, { s with sources := sources, bits := s.bits.clear })

def feedSlot? (moduleIndex : Nat) (words : List UInt32) (g : Graph) (s : Slot) :
    Option (Graph × Slot) := do
  let (sources, store) ← Slot.feedSources? moduleIndex words s.sources g.arena.store
  return (g.withStore store, { s with sources := sources })

def endEventSlot? (g : Graph) (s : Slot) : Option (Graph × Slot) := do
  let (operators, f) ← Slot.mapOperators? Operator.step? s.operators (g.frame s)
  let (filler, store) ← f.filler.flush? f.store
  let g := g.withFrame { f with filler := filler, store := store }
  return ({ g with events := g.events + 1 }, { s with operators := operators, bits := f.bits })

def tickSlot? (g : Graph) (s : Slot) : Option (Graph × Slot) := do
  let (operators, _) ←
    Slot.mapOperators? (fun op f => do return (← op.tick? f.store, f)) s.operators (g.frame s)
  return (g, { s with operators := operators })

end Graph

/-- The end of a run looks at no value. -/
def RunCall.perform? (g : Graph) : RunCall → Option Graph
  | beginRun => do
    return { ← g.onSlots? Graph.beginRunSlot? with running := true, events := 0, ticks := 0 }
  | during (.beginEvent event) => g.onSlot? event Graph.beginEventSlot?
  | during (.feed event moduleIndex words) => g.onSlot? event (Graph.feedSlot? moduleIndex words)
  | during (.endEvent event) => g.onSlot? event Graph.endEventSlot?
  | during .tick => do
    return { ← g.onSlots? Graph.tickSlot? with ticks := g.ticks + 1 }
  | endRun => do
    return { ← g.onSlots? fun g s => some (Graph.endRunSlot g s) with running := false }

namespace Graph

def run? (g : Graph) (calls : List RunCall) : Option Graph := calls.foldlM RunCall.perform? g

/-- All nodes are in range, and so are the bins that wait in the queue. -/
structure InRange (g : Graph) : Prop where
  slots : ∀ s ∈ g.slots, s.InRange g.arena.store.slots
  filler : g.filler.Fits g.arena.store.slots

/-- On slots in range a checked function makes the same as a plain one, which keeps the layout. -/
structure Tracks (φ? : Graph → Slot → Option (Graph × Slot)) (φ : Graph → Slot → Graph × Slot) :
    Prop where
  keeps : Keeps φ
  eq : ∀ g s, s.InRange g.arena.store.slots → g.filler.Fits g.arena.store.slots →
    φ? g s = some (φ g s) ∧ (φ g s).1.filler.Fits g.arena.store.slots

variable {φ? : Graph → Slot → Option (Graph × Slot)} {φ : Graph → Slot → Graph × Slot}
  {g g' : Graph}

theorem InRange.of_layout (h : g.InRange) (hl : g'.layout = g.layout)
    (hf : g'.filler.Fits g'.arena.store.slots) : g'.InRange := by
  refine ⟨fun s hs => ?_, hf⟩
  have hroom : g'.arena.store.slots = g.arena.store.slots := congrArg Layout.room hl
  have hslots : g'.slots.map Slot.resting = g.slots.map Slot.resting := congrArg Layout.slots hl
  have hmem : s.resting ∈ g.slots.map Slot.resting := hslots ▸ List.mem_map_of_mem hs
  obtain ⟨t, ht, hts⟩ := List.mem_map.1 hmem
  rw [hroom]
  exact (h.slots t ht).of_resting hts.symm

theorem InRange.onSlot (h : g.InRange) (hφ : Tracks φ? φ) (event : Nat) :
    g.onSlot? event φ? = some (g.onSlot event φ) ∧ (g.onSlot event φ).InRange := by
  have hlayout := layout_onSlot hφ.keeps g event
  rw [Graph.onSlot] at hlayout ⊢
  rw [onSlot?]
  cases hs : g.slots[event]? with
  | none => exact ⟨rfl, h⟩
  | some s =>
    rw [hs] at hlayout
    obtain ⟨heq, hfits⟩ := hφ.eq g s (h.slots s (List.mem_of_getElem? hs)) h.filler
    dsimp only at hlayout ⊢
    rw [heq]
    refine ⟨rfl, h.of_layout hlayout ?_⟩
    have hroom := hφ.keeps.room g s
    exact hroom.symm ▸ hfits

theorem InRange.onSlots (h : g.InRange) (hφ : Tracks φ? φ) :
    g.onSlots? φ? = some (g.onSlots φ) ∧ (g.onSlots φ).InRange := by
  have hfold : ∀ (is : List Nat) (g : Graph), g.InRange →
      (is.foldlM (fun g i => g.onSlot? i φ?) g) = some (is.foldl (fun g i => g.onSlot i φ) g) ∧
        (is.foldl (fun g i => g.onSlot i φ) g).InRange := by
    intro is
    induction is with
    | nil => exact fun g hg => ⟨rfl, hg⟩
    | cons i is ih =>
      intro g hg
      obtain ⟨heq, hnext⟩ := hg.onSlot hφ i
      rw [List.foldlM_cons, heq]
      exact ih _ hnext
  exact hfold _ g h

theorem tracks_beginRunSlot : Tracks beginRunSlot? beginRunSlot := by
  refine ⟨keeps_beginRunSlot, fun g s hs hf => ?_⟩
  have hfill : ∀ (n : Source) (st : Store), (n.beginRun st).slots = st.slots := fun n st =>
    st.slots_fill n.hitCounts Value.zero
  have hsrc := Slot.mapSources?_eq (fun n st => do return (n, ← n.beginRun? st))
    (fun n st => (n, n.beginRun st)) (fun n st hn => by rw [hn.beginRun?_eq]; rfl) hfill
    hs.sources rfl
  have hslots := (Slot.mapSources_keeps (fun n st => (n, n.beginRun st))
    (fun n st => ⟨rfl, hfill n st⟩) s.sources g.arena.store).2
  obtain ⟨hops, hfits⟩ := Slot.mapPhase?_eq Operator.beginRun? Operator.phase_beginRun
    (fun op f hop => hop.beginRun?_eq) hs.operators (f := (g.withStore _).frame s) ⟨hslots, hf⟩
  rw [beginRunSlot?, hsrc]
  simp only [Option.bind_eq_bind, Option.bind_some, hops]
  exact ⟨rfl, hfits.fits⟩

theorem tracks_beginEventSlot : Tracks beginEventSlot? beginEventSlot := by
  refine ⟨keeps_beginEventSlot, fun g s hs hf => ?_⟩
  rw [beginEventSlot?, Slot.mapSources?_eq Source.beginEvent? Source.beginEvent
    (fun n st hn => hn.beginEvent?_eq) Source.slots_beginEvent hs.sources rfl]
  exact ⟨rfl, hf⟩

theorem tracks_feedSlot (moduleIndex : Nat) (words : List UInt32) :
    Tracks (feedSlot? moduleIndex words) (feedSlot moduleIndex words) := by
  refine ⟨keeps_feedSlot moduleIndex words, fun g s hs hf => ?_⟩
  rw [feedSlot?, Slot.feedSources?_eq moduleIndex words hs.sources rfl]
  exact ⟨rfl, hf⟩

/-- The steps of an event queue bins that are there when the queue is flushed. -/
theorem tracks_endEventSlot : Tracks endEventSlot? endEventSlot := by
  refine ⟨keeps_endEventSlot, fun g s hs hf => ?_⟩
  have hstep : ∀ (op : Operator) (f : Frame), (op.step f).2.store.slots = f.store.slots :=
    fun op f => (Operator.step_frame (Region.none_beyond op) f).store.slots_eq.symm
  obtain ⟨hops, hfits⟩ := Slot.mapOperators?_eq Operator.step?
    (fun op f hop hf => ⟨hop.step?_eq, hstep op f, hop.fits_step hf.fits⟩) hs.operators
    (f := g.frame s) ⟨rfl, hf⟩
  have hflush := Filler.flush?_eq (hfits.slots_eq.symm ▸ hfits.fits)
  rw [endEventSlot?, hops]
  simp only [Option.bind_eq_bind, Option.bind_some, hflush]
  exact ⟨rfl, fun cell hc => absurd hc List.not_mem_nil⟩

theorem tracks_tickSlot : Tracks tickSlot? tickSlot := by
  refine ⟨keeps_tickSlot, fun g s hs hf => ?_⟩
  obtain ⟨hops, -⟩ := Slot.mapPhase?_eq
    (fun op f => do return (← op.tick? f.store, f)) Operator.phase_tick
    (fun op f hop => by rw [hop.tick?_eq]; rfl) hs.operators (f := g.frame s) ⟨rfl, hf⟩
  rw [tickSlot?, hops]
  exact ⟨rfl, hf⟩

theorem tracks_endRunSlot : Tracks (fun g s => some (endRunSlot g s)) endRunSlot := by
  refine ⟨keeps_endRunSlot, fun g s hs hf => ⟨rfl, ?_⟩⟩
  have hq : (endRunSlot g s).1.filler = g.filler :=
    (Slot.mapOperators_phase Operator.phase_endRun s.operators (g.frame s)).1
  rw [hq]
  exact hf

theorem InRange.apply (h : g.InRange) (c : RunCall) :
    c.perform? g = some (c.apply g) ∧ (c.apply g).InRange := by
  cases c with
  | beginRun =>
    obtain ⟨heq, hin⟩ := h.onSlots tracks_beginRunSlot
    rw [RunCall.perform?, heq]
    exact ⟨rfl, hin.slots, hin.filler⟩
  | endRun =>
    obtain ⟨heq, hin⟩ := h.onSlots tracks_endRunSlot
    rw [RunCall.perform?, heq]
    exact ⟨rfl, hin.slots, hin.filler⟩
  | during c =>
    cases c with
    | beginEvent event => exact h.onSlot tracks_beginEventSlot event
    | feed event moduleIndex words => exact h.onSlot (tracks_feedSlot moduleIndex words) event
    | endEvent event => exact h.onSlot tracks_endEventSlot event
    | tick =>
      obtain ⟨heq, hin⟩ := h.onSlots tracks_tickSlot
      rw [RunCall.perform?, heq]
      exact ⟨rfl, hin.slots, hin.filler⟩

theorem InRange.run (h : g.InRange) (calls : List RunCall) :
    g.run? calls = some (calls.foldl RunCall.apply g) := by
  induction calls generalizing g with
  | nil => rfl
  | cons c calls ih =>
    obtain ⟨heq, hin⟩ := h.apply c
    rw [run?, List.foldlM_cons, heq]
    exact ih hin

end Graph

theorem Pipe.stop_le_of_mem_views {p v : Pipe} {slots : Nat} (hp : ∀ t ∈ p.spans, t.stop ≤ slots)
    (hv : v ∈ p.views) : ∀ t ∈ v.spans, t.stop ≤ slots := by
  rcases mem_views hv with rfl | ⟨i, hi⟩
  · exact hp
  · obtain ⟨hd, hl, hu⟩ := element?_eq_some hi
    simp only [spans, List.forall_mem_cons, List.not_mem_nil, false_implies, implies_true,
      and_true] at hp ⊢
    exact ⟨Nat.le_trans (Span.stop_element_le hd).1 hp.1,
      Nat.le_trans (Span.stop_element_le hl).1 hp.2.1,
      Nat.le_trans (Span.stop_element_le hu).1 hp.2.2⟩

namespace Workbench

variable {w : Workbench}

theorem Sound.stop_le (h : w.Sound) {p : Span} (hp : p ∈ w.owned) :
    p.stop ≤ w.plan.arena.store.slots := by
  have hwithin := (h.placed.within p hp).2
  have hfits := h.fits
  rw [h.room] at hfits
  exact Nat.le_of_mul_le_mul_right (Nat.le_trans hwithin hfits) (by decide : 0 < Arena.valueSize)

theorem Sound.inRange_source (h : w.Sound) {s : Source} (hs : s ∈ w.allSources)
    (hf : s.decoder.Faithful) : s.InRange w.plan.arena.store.slots := by
  refine ⟨(h.sources s hs).shaped, fun p hp => h.stop_le ?_, hf⟩
  exact List.mem_append_left _ (List.mem_append_right _ (List.mem_flatMap.2 ⟨s, hs, hp⟩))

theorem Sound.inRange_operator (h : w.Sound) {op : Operator} (ho : op ∈ w.allOperators)
    (hx : op.kind.Exact) : op.InRange w.plan.arena.store.slots := by
  have hc := h.operators op ho
  have howned : ∀ p ∈ op.owned, p ∈ w.owned := fun p hp =>
    List.mem_append_right _ (List.mem_flatMap.2 ⟨op, ho, hp⟩)
  refine ⟨hc.shaped, fun p hp => ?_, fun p hp => ?_, ?_, fun s hs v hv t ht => ?_, hx⟩
  · rcases List.mem_append.1 hp with hp | hp
    · obtain ⟨q, hq, hv, -⟩ := hc.inputs p hp
      exact Pipe.even_of_mem_views (h.even_of_mem_taps hq) hv
    · exact hc.outputs_even p hp
  · rcases List.mem_append.1 hp with hp | hp
    · obtain ⟨v, hv, hp⟩ := List.mem_flatMap.1 hp
      obtain ⟨q, hq, hvq, -⟩ := hc.inputs v hv
      exact Pipe.stop_le_of_mem_views (fun t ht => h.stop_le (spans_subset_owned hq ht)) hvq p hp
    · exact h.stop_le (howned p hp)
  · have hops := (List.pairwise_append.1 h.placed.apart).2.1
    exact (List.pairwise_flatMap.1 hops).1 op ho
  · obtain ⟨q, -, hvq, hq⟩ := hc.inputs v hv
    exact Pipe.apart_of_inside (Pipe.inside_of_mem_views hvq) ht (hq s hs)

end Workbench

end Readout
