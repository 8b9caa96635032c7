import Readout.Proofs.Graph.Runs

/-!
# Fill strategies

A graph that queues bins and one that increments them at once are in the same state whenever no
event is being ended. While an event ends they differ by the increments that the queue holds, none
of which any operator can see; the flush at the end of the event makes up for them. The queue never
holds more bins than the operators of the event can fill.
-/
namespace Readout

namespace Slot

variable {ns : List (Numbered RankedOperator)} {f g : Frame}

theorem mapOperators_same {φ : Operator → Frame → Operator × Frame} (hφ : Operator.Phase φ)
    (ns : List (Numbered RankedOperator)) (h : f.Same g) :
    (mapOperators φ ns f).1 = (mapOperators φ ns g).1 ∧
      (mapOperators φ ns f).2.Same (mapOperators φ ns g).2 :=
  mapOperators_related ns (fun n _ => hφ.same n.node.operator) h

theorem mapOperators_defers {B : Nat → Prop} {base : List Span}
    (hB : ∀ n ∈ ns, n.node.operator.Bins B) (h : f.Defers B base g) :
    (mapOperators Operator.step ns f).1 = (mapOperators Operator.step ns g).1 ∧
      (mapOperators Operator.step ns f).2.Defers B base (mapOperators Operator.step ns g).2 :=
  mapOperators_related ns (fun n hn _ _ => (hB n hn).step) h

theorem filler_mapOperators_direct (ns : List (Numbered RankedOperator)) {f : Frame}
    (hq : f.filler.strategy = .direct) : (mapOperators Operator.step ns f).2.filler = f.filler := by
  induction ns generalizing f with
  | nil => rfl
  | cons n ns ih =>
    have hn := n.node.operator.filler_step hq
    exact (ih (hn.symm ▸ hq)).trans hn

/-- Bins that the operators of a slot can fill in one event. -/
def maxFills (s : Slot) : Nat := total (s.nodes.map fun op => op.kind.maxFills)

theorem pending_mapOperators (ns : List (Numbered RankedOperator)) (f : Frame) :
    (mapOperators Operator.step ns f).2.filler.pending ≤
      f.filler.pending + total (ns.map fun n => n.node.operator.kind.maxFills) := by
  induction ns generalizing f with
  | nil => exact Nat.le_refl _
  | cons n ns ih =>
    obtain ⟨-, -, hp⟩ := n.node.operator.filler_step_spec f
    have hrest := ih (n.node.operator.step f).2
    simp only [mapOperators_cons, List.map_cons, total]
    omega

theorem maxFills_resting (s : Slot) : s.resting.maxFills = s.maxFills := by
  simp [maxFills, nodes_resting, Function.comp_def]

end Slot

namespace Graph

/-- Two graphs with the same contents. The first one has no bins in its queue, the second one never
queues any. -/
structure Twins (gb gd : Graph) : Prop where
  store : gb.arena.store.Same gd.arena.store
  volume : gb.volume = gd.volume
  queue : gb.filler.queue = []
  direct : gd.filler.strategy = .direct
  queue' : gd.filler.queue = []

/-- A function of slots that cannot tell twins apart. -/
structure TwinStep (φ : Graph → Slot → Graph × Slot) : Prop where
  slot_eq : ∀ gb gd s, Twins gb gd → Laid s.nodes → (φ gb s).2 = (φ gd s).2
  twins : ∀ gb gd s, Twins gb gd → Laid s.nodes → Twins (φ gb s).1 (φ gd s).1

theorem Twins.frame_same {gb gd : Graph} (h : Twins gb gd) (s : Slot) :
    (gb.frame s).Same (gd.frame s) := ⟨h.store, rfl, h.volume⟩

/-- Between events only the store and the volume change. -/
theorem Twins.withFrame {gb gd : Graph} (h : Twins gb gd) {f f' : Frame} (hf : f.Same f')
    (hq : f.filler = gb.filler) (hq' : f'.filler = gd.filler) :
    Twins (gb.withFrame f) (gd.withFrame f') :=
  ⟨hf.store, hf.volume, (congrArg Filler.queue hq).trans h.queue,
    (congrArg Filler.strategy hq').trans h.direct, (congrArg Filler.queue hq').trans h.queue'⟩

theorem Twins.withStore {gb gd : Graph} (h : Twins gb gd) {s t : Store} (hs : s.Same t) :
    Twins (gb.withStore s) (gd.withStore t) :=
  ⟨hs, h.volume, h.queue, h.direct, h.queue'⟩

theorem twinStep_beginRunSlot : TwinStep beginRunSlot := by
  have hsrc : ∀ (gb gd : Graph) (s : Slot), Twins gb gd →
      (Slot.mapSources (fun n st => (n, n.beginRun st)) s.sources gb.arena.store).1 =
        (Slot.mapSources (fun n st => (n, n.beginRun st)) s.sources gd.arena.store).1 ∧
      Store.Same (Slot.mapSources (fun n st => (n, n.beginRun st)) s.sources gb.arena.store).2
        (Slot.mapSources (fun n st => (n, n.beginRun st)) s.sources gd.arena.store).2 :=
    fun gb gd s h => Slot.mapSources_agree (fun n s t hst => ⟨rfl, n.agree_beginRun hst⟩) _ h.store
  constructor
  · intro gb gd s h _
    obtain ⟨hs, hst⟩ := hsrc gb gd s h
    obtain ⟨hops, -⟩ := Slot.mapOperators_same Operator.phase_beginRun s.operators
      ((h.withStore hst).frame_same s)
    simp only [beginRunSlot]
    rw [hs, hops]
  · intro gb gd s h _
    obtain ⟨-, hst⟩ := hsrc gb gd s h
    obtain ⟨-, hf⟩ := Slot.mapOperators_same Operator.phase_beginRun s.operators
      ((h.withStore hst).frame_same s)
    exact (h.withStore hst).withFrame hf (Slot.mapOperators_phase Operator.phase_beginRun _ _).1
      (Slot.mapOperators_phase Operator.phase_beginRun _ _).1

theorem twinStep_beginEventSlot : TwinStep beginEventSlot := by
  have hsrc := fun (gb gd : Graph) (s : Slot) (h : Twins gb gd) =>
    Slot.mapSources_agree (fun n _ _ hst => n.agree_beginEvent hst) s.sources h.store
  constructor
  · intro gb gd s h _
    simp only [beginEventSlot]
    rw [(hsrc gb gd s h).1]
  · intro gb gd s h _
    exact h.withStore (hsrc gb gd s h).2

theorem twinStep_feedSlot (moduleIndex : Nat) (words : List UInt32) :
    TwinStep (feedSlot moduleIndex words) := by
  have hsrc := fun (gb gd : Graph) (s : Slot) (h : Twins gb gd) =>
    Slot.feedSources_agree moduleIndex words s.sources (fun _ _ _ _ _ _ => trivial) h.store
  constructor
  · intro gb gd s h _
    simp only [feedSlot]
    rw [(hsrc gb gd s h).1]
  · intro gb gd s h _
    exact h.withStore (hsrc gb gd s h).2

theorem twinStep_endRunSlot : TwinStep endRunSlot := by
  have hops := fun (gb gd : Graph) (s : Slot) (h : Twins gb gd) =>
    Slot.mapOperators_same Operator.phase_endRun s.operators (h.frame_same s)
  constructor
  · intro gb gd s h _
    simp only [endRunSlot]
    rw [(hops gb gd s h).1]
  · intro gb gd s h _
    exact h.withFrame (hops gb gd s h).2 (Slot.mapOperators_phase Operator.phase_endRun _ _).1
      (Slot.mapOperators_phase Operator.phase_endRun _ _).1

theorem twinStep_tickSlot : TwinStep tickSlot := by
  constructor
  · intro gb gd s h _
    simp only [tickSlot]
    rw [(Slot.mapOperators_same Operator.phase_tick s.operators (h.frame_same s)).1]
  · exact fun gb gd s h _ => h

/-- While an event ends, one twin has to catch up on the bins of its queue. -/
theorem Twins.defers {gb gd : Graph} (h : Twins gb gd) (s : Slot) (B : Nat → Prop) :
    (gb.frame s).Defers B [] (gd.frame s) := by
  refine ⟨⟨[], by simpa [frame] using h.queue, by simp, fun k => ?_⟩, h.store.slots_eq, rfl,
    h.volume, h.direct⟩
  exact (h.store.read_eq k trivial).symm

theorem twinStep_endEventSlot : TwinStep endEventSlot := by
  have hdefers := fun (gb gd : Graph) (s : Slot) (h : Twins gb gd) (hl : Laid s.nodes) =>
    Slot.mapOperators_defers (fun n hn => hl.bins n.node.operator (List.mem_map.2 ⟨n, hn, rfl⟩))
      (h.defers s _)
  constructor
  · intro gb gd s h hl
    obtain ⟨hops, hd⟩ := hdefers gb gd s h hl
    simp only [endEventSlot]
    rw [hops, hd.bits_eq]
  · intro gb gd s h hl
    obtain ⟨-, hd⟩ := hdefers gb gd s h hl
    have hq := Slot.filler_mapOperators_direct s.operators (f := gd.frame s) h.direct
    refine ⟨⟨?_, fun k _ => ?_⟩, hd.volume_eq, rfl, (congrArg Filler.strategy hq).trans h.direct,
      rfl⟩
    · exact ((Filler.slots_flush _ _).trans hd.slots_eq).trans (Filler.slots_flush _ _).symm
    · exact (hd.read_flush k).trans (Filler.read_flush_nil (by rw [hq]; exact h.queue') _ k).symm

/-- Twins are in the same state. -/
structure Alike (gb gd : Graph) : Prop where
  twins : Twins gb gd
  slots : gb.slots = gd.slots

theorem Alike.onSlot {φ : Graph → Slot → Graph × Slot} {gb gd : Graph} (h : Alike gb gd)
    (hk : Keeps φ) (ht : TwinStep φ) (hl : ∀ s ∈ gb.slots, Laid s.nodes) (event : Nat) :
    Alike (gb.onSlot event φ) (gd.onSlot event φ) := by
  rw [Graph.onSlot, Graph.onSlot, ← h.slots]
  cases hs : gb.slots[event]? with
  | none => exact h
  | some s =>
    have hlaid := hl s (List.mem_of_getElem? hs)
    have htw := ht.twins gb gd s h.twins hlaid
    refine ⟨⟨htw.store, htw.volume, htw.queue, htw.direct, htw.queue'⟩, ?_⟩
    dsimp only
    rw [hk.slots, hk.slots, h.slots, ht.slot_eq gb gd s h.twins hlaid]

/-- A run keeps the slots laid, whatever it makes of their contents. -/
theorem laid_of_layout {g g' : Graph} (h : g'.layout = g.layout)
    (hl : ∀ s ∈ g.slots, Laid s.nodes) : ∀ s ∈ g'.slots, Laid s.nodes := by
  intro s hs
  have hslots : g'.slots.map Slot.resting = g.slots.map Slot.resting := congrArg Layout.slots h
  have hmem : s.resting ∈ g.slots.map Slot.resting := hslots ▸ List.mem_map_of_mem hs
  obtain ⟨t, ht, hts⟩ := List.mem_map.1 hmem
  refine (hl t ht).of_resting ?_
  rw [← Slot.nodes_resting, ← Slot.nodes_resting, hts]

theorem Alike.onSlots {φ : Graph → Slot → Graph × Slot} {gb gd : Graph} (h : Alike gb gd)
    (hk : Keeps φ) (ht : TwinStep φ) (hl : ∀ s ∈ gb.slots, Laid s.nodes) :
    Alike (gb.onSlots φ) (gd.onSlots φ) := by
  have hfold : ∀ (is : List Nat) (gb gd : Graph), Alike gb gd → (∀ s ∈ gb.slots, Laid s.nodes) →
      Alike (is.foldl (fun g i => g.onSlot i φ) gb) (is.foldl (fun g i => g.onSlot i φ) gd) := by
    intro is
    induction is with
    | nil => exact fun gb gd h _ => h
    | cons i is ih =>
      intro gb gd h hl
      exact ih _ _ (h.onSlot hk ht hl i) (laid_of_layout (layout_onSlot hk gb i) hl)
  rw [Graph.onSlots, Graph.onSlots, ← h.slots]
  exact hfold _ gb gd h hl

theorem Alike.apply {gb gd : Graph} (h : Alike gb gd) (hl : ∀ s ∈ gb.slots, Laid s.nodes)
    (c : RunCall) : Alike (c.apply gb) (c.apply gd) := by
  cases c with
  | beginRun =>
    have hs := h.onSlots keeps_beginRunSlot twinStep_beginRunSlot hl
    exact ⟨⟨hs.twins.store, hs.twins.volume, hs.twins.queue, hs.twins.direct, hs.twins.queue'⟩,
      hs.slots⟩
  | endRun =>
    have hs := h.onSlots keeps_endRunSlot twinStep_endRunSlot hl
    exact ⟨⟨hs.twins.store, hs.twins.volume, hs.twins.queue, hs.twins.direct, hs.twins.queue'⟩,
      hs.slots⟩
  | during c =>
    cases c with
    | beginEvent event => exact h.onSlot keeps_beginEventSlot twinStep_beginEventSlot hl event
    | feed event moduleIndex words =>
      exact h.onSlot (keeps_feedSlot moduleIndex words) (twinStep_feedSlot moduleIndex words) hl
        event
    | endEvent event => exact h.onSlot keeps_endEventSlot twinStep_endEventSlot hl event
    | tick =>
      have hs := h.onSlots keeps_tickSlot twinStep_tickSlot hl
      exact ⟨⟨hs.twins.store, hs.twins.volume, hs.twins.queue, hs.twins.direct, hs.twins.queue'⟩,
        hs.slots⟩

theorem Alike.run {gb gd : Graph} (h : Alike gb gd) (hl : ∀ s ∈ gb.slots, Laid s.nodes)
    (calls : List RunCall) :
    Alike (calls.foldl RunCall.apply gb) (calls.foldl RunCall.apply gd) := by
  induction calls generalizing gb gd with
  | nil => exact h
  | cons c calls ih => exact ih (h.apply hl c) (laid_of_layout (gb.layout_apply c) hl)

end Graph

namespace Workbench

/-- The strategy matters to nothing that is done on a workbench. -/
def withStrategy (w : Workbench) (s : FillStrategy) : Workbench :=
  { w with plan := { w.plan with strategy := s } }

theorem alloc_withStrategy {α : Type} (w : Workbench) (s : FillStrategy) (x : Alloc α)
    {k : Workbench → α → Workbench}
    (hk : ∀ w v, k (w.withStrategy s) v = (k w v).withStrategy s) :
    (w.withStrategy s).alloc x k = (w.alloc x k).withStrategy s := by
  have ha : (w.withStrategy s).plan.arena = w.plan.arena := rfl
  rw [alloc, alloc, ha]
  rcases x w.plan.arena with ⟨c | v, a⟩
  · rfl
  · exact hk { w with plan := { w.plan with arena := a } } v

theorem extend_withStrategy (w : Workbench) (s : FillStrategy) (x : Planning Handle)
    {k : Workbench → Workbench} (hk : ∀ w, k (w.withStrategy s) = (k w).withStrategy s)
    (hx : x (w.withStrategy s).plan =
      ((x w.plan).1, { (x w.plan).2 with strategy := s })) :
    (w.withStrategy s).extend x k = (w.extend x k).withStrategy s := by
  rw [extend, extend, hx]
  rcases x w.plan with ⟨c | h, p⟩
  · rfl
  · exact hk { w with plan := p }

theorem apply_withStrategy (w : Workbench) (s : FillStrategy) (call : BuildCall) :
    (w.withStrategy s).apply call = (w.apply call).withStrategy s := by
  have hevents : (w.withStrategy s).plan.events = w.plan.events := rfl
  cases call with
  | pushPipe length lower upper =>
    rw [apply, apply]
    exact w.alloc_withStrategy s _ fun w p => rfl
  | reserve size align =>
    rw [apply, apply]
    exact w.alloc_withStrategy s _ fun w _ => rfl
  | assign p vs =>
    rw [apply, apply]
    exact w.alloc_withStrategy s _ fun w _ => rfl
  | makeSource r =>
    rw [apply, apply]
    exact w.alloc_withStrategy s _ fun w n => rfl
  | makeOperator r =>
    by_cases ho : w.Offers r.inputs
    · have ho' : (w.withStrategy s).Offers r.inputs := ho
      rw [apply, apply, if_pos ho, if_pos ho']
      exact w.alloc_withStrategy s _ fun w op => rfl
    · have ho' : ¬ (w.withStrategy s).Offers r.inputs := ho
      rw [apply, apply, if_neg ho, if_neg ho']
  | addSource event position =>
    have hsources : (w.withStrategy s).sources = w.sources := rfl
    rw [apply, apply, hsources]
    cases w.sources[position]? with
    | none => rfl
    | some n =>
      refine w.extend_withStrategy s _ (fun w => rfl) ?_
      rw [Plan.addSource_apply, Plan.addSource_apply, hevents]
      split
      · rfl
      · cases w.plan.events[event]? with
        | none => rfl
        | some e =>
          dsimp only
          cases e.addSource n <;> rfl
  | addOperator event position gate =>
    have hoperators : (w.withStrategy s).operators = w.operators := rfl
    rw [apply, apply, hoperators]
    cases w.operators[position]? with
    | none => rfl
    | some op =>
      refine w.extend_withStrategy s _ (fun w => rfl) ?_
      rw [Plan.addOperator_apply, Plan.addOperator_apply, hevents]
      cases w.plan.events[event]? with
      | none => rfl
      | some e =>
        dsimp only
        cases e.addOperator { op with gate := gate } <;> rfl

theorem after_withStrategy (capacity : Nat) (strategy s : FillStrategy) (calls : List BuildCall) :
    after capacity s calls = (after capacity strategy calls).withStrategy s := by
  have hfold : ∀ w : Workbench, calls.foldl apply (w.withStrategy s) =
      (calls.foldl apply w).withStrategy s := by
    induction calls with
    | nil => exact fun w => rfl
    | cons c calls ih =>
      intro w
      rw [List.foldl_cons, List.foldl_cons, apply_withStrategy, ih]
  exact hfold (new capacity strategy)

theorem twins_build (capacity : Nat) (calls : List BuildCall) (volume : Volume) :
    Graph.Alike ((after capacity .batched calls).plan.build volume)
      ((after capacity .direct calls).plan.build volume) := by
  rw [after_withStrategy capacity .batched .direct, after_withStrategy capacity .batched .batched]
  exact ⟨⟨Store.AgreeOn.refl _ _, rfl, rfl, rfl, rfl⟩, rfl⟩

theorem laid_build (capacity : Nat) (strategy : FillStrategy) (calls : List BuildCall)
    (volume : Volume) :
    ∀ s ∈ ((after capacity strategy calls).plan.build volume).slots, Laid s.nodes := by
  intro s hs
  obtain ⟨e, he, rfl⟩ := List.mem_map.1 hs
  exact ((sound_after capacity strategy calls).laid he).perm (nodes_slot_perm e).symm

end Workbench

theorem total_perm {xs ys : List Nat} (h : xs.Perm ys) : total xs = total ys := by
  induction h with
  | nil => rfl
  | cons x h ih => rw [total, total, ih]
  | swap x y xs => exact Nat.add_left_comm y x (total xs)
  | trans h h' ih ih' => exact ih.trans ih'

theorem EventPlan.maxFills_slot (e : EventPlan) : e.slot.maxFills = e.maxFills := by
  have hperm := (Workbench.nodes_slot_perm e).map fun op => op.kind.maxFills
  rw [Slot.maxFills, EventPlan.maxFills, total_perm hperm, List.map_map]
  rfl

/-- The queue of a graph has room for what the operators of any event can fill. -/
theorem Plan.maxFills_le_capacity (p : Plan) (hp : p.strategy = .batched) (volume : Volume) :
    ∀ s ∈ (p.build volume).slots, s.maxFills ≤ (p.build volume).filler.capacity := by
  intro s hs
  obtain ⟨e, he, rfl⟩ := List.mem_map.1 hs
  have hcap : (p.build volume).filler.capacity = max 0 p.maxFills := by
    rw [build, hp]
    rfl
  rw [hcap, e.maxFills_slot, Nat.zero_max]
  exact EventPlan.le_foldl_max 0 (List.mem_map_of_mem he)

/-- A graph that queues bins, between the calls of a run, against one that does not. -/
structure Graph.KeepsUp (gb gd : Graph) : Prop where
  /-- Nodes and their counts, and the condition bits, are the same. -/
  slots : gb.slots = gd.slots
  /-- All outputs and all bins are the same. -/
  contents : ∀ i, gb.arena.store.read i = gd.arena.store.read i
  volume : gb.volume = gd.volume
  queue : gb.filler.queue = []
  /-- At no point of an event does the queue hold more than the operators of the event fill. -/
  bounded : ∀ s ∈ gb.slots, ∀ before behind, s.operators = before ++ behind →
    (Slot.mapOperators Operator.step before (gb.frame s)).2.filler.pending ≤ s.maxFills
  room : ∀ s ∈ gb.slots, s.maxFills ≤ gb.filler.capacity

open Workbench in
/-- Whatever calls made a plan and whatever calls it runs through, it does not matter whether its
bins are queued. -/
theorem keepsUp_run (capacity : Nat) (calls : List BuildCall) (volume : Volume)
    (runs : List RunCall) :
    Graph.KeepsUp (runs.foldl RunCall.apply ((after capacity .batched calls).plan.build volume))
      (runs.foldl RunCall.apply ((after capacity .direct calls).plan.build volume)) := by
  have hlaid := laid_build capacity .batched calls volume
  have halike := (twins_build capacity calls volume).run hlaid runs
  have hlayout := ((after capacity .batched calls).plan.build volume).layout_run runs
  have hstrategy : (after capacity .batched calls).plan.strategy = .batched := by
    rw [after_withStrategy capacity .batched .batched]
    rfl
  have hroom := (after capacity .batched calls).plan.maxFills_le_capacity hstrategy volume
  revert halike hlayout hroom
  generalize (after capacity .batched calls).plan.build volume = g₀
  generalize runs.foldl RunCall.apply g₀ = gb
  intro halike hlayout hroom
  refine ⟨halike.slots, fun i => halike.twins.store.read_eq i trivial, halike.twins.volume,
    halike.twins.queue, ?_, ?_⟩
  · intro s hs before behind hsplit
    have hpending := Slot.pending_mapOperators before (gb.frame s)
    have hempty : (gb.frame s).filler.pending = 0 := congrArg List.length halike.twins.queue
    have htotal : s.maxFills = total (before.map fun n => n.node.operator.kind.maxFills) +
        total (behind.map fun n => n.node.operator.kind.maxFills) := by
      rw [Slot.maxFills, Slot.nodes, hsplit, ← total_append]
      simp [Function.comp_def]
    omega
  · intro s hs
    have hslots : gb.slots.map Slot.resting = g₀.slots.map Slot.resting :=
      congrArg Graph.Layout.slots hlayout
    have hcap : gb.filler.capacity = g₀.filler.capacity :=
      congrArg (fun l => l.filler.capacity) hlayout
    obtain ⟨t, ht, hts⟩ := List.mem_map.1 (hslots ▸ List.mem_map_of_mem hs :
      s.resting ∈ g₀.slots.map Slot.resting)
    rw [← s.maxFills_resting, ← hts, t.maxFills_resting, hcap]
    exact hroom t ht

end Readout
