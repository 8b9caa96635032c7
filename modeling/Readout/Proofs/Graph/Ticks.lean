import Readout.Proofs.Graph.Reach

/-!
# Ticks of time

A tick has the rate monitors that count a flow take samples, and is counted by export sinks and by
the graph. None of this is read when a run begins, when it takes events or when it ends: a run is
the same with and without its ticks but for these samples and counts.
-/
namespace Readout

/-- A monitor without the samples that were taken at ticks. -/
def RateMonitor.unticked (m : RateMonitor) : RateMonitor :=
  match m.mode with
  | .flow => { m with samplers := m.samplers.map Sampler.reset }
  | _ => m

def ExportSink.unticked (s : ExportSink) : ExportSink := { s with ticks := 0 }

def Kind.unticked : Kind → Kind
  | rateMonitor m => rateMonitor m.unticked
  | exportSink s => exportSink s.unticked
  | k => k

def Operator.unticked (op : Operator) : Operator := { op with kind := op.kind.unticked }

def RankedOperator.unticked (o : RankedOperator) : RankedOperator :=
  { o with operator := o.operator.unticked }

def Slot.unticked (s : Slot) : Slot :=
  { s with operators := s.operators.map (Numbered.map RankedOperator.unticked) }

/-- A graph without what ticks leave in it. Sources, condition bits, store, files, counts of events
and all other operators are kept as they are. -/
def Graph.unticked (g : Graph) : Graph :=
  { g with slots := g.slots.map Slot.unticked, ticks := 0 }

def RunCall.isTick : RunCall → Bool
  | during .tick => true
  | _ => false

namespace RateMonitor

theorem unticked_beginRun (m : RateMonitor) (st : Store) :
    m.unticked.beginRun st = ((m.beginRun st).1.unticked, (m.beginRun st).2) := by
  obtain ⟨samplers, mode, hitCounts⟩ := m
  cases mode <;> simp [unticked, beginRun, Function.comp_def, Sampler.reset, Sampler.new]

theorem unticked_step (m : RateMonitor) (st : Store) (vs : List Value) :
    m.unticked.step st vs = ((m.step st vs).1.unticked, (m.step st vs).2) := by
  obtain ⟨samplers, mode, hitCounts⟩ := m
  cases mode <;> rfl

theorem unticked_tick (m : RateMonitor) (st : Store) : (m.tick st).unticked = m.unticked := by
  obtain ⟨samplers, mode, hitCounts⟩ := m
  cases mode with
  | flow => simp only [tick, unticked, reset_zipSamplers reset_sample]
  | _ => rfl

end RateMonitor

namespace ExportSink

variable {V : Type} [Files V]

theorem unticked_beginRun (s : ExportSink) (v : V) :
    s.unticked.beginRun v = ((s.beginRun v).1.unticked, (s.beginRun v).2) := by
  simp only [beginRun, unticked]
  split <;> rfl

theorem unticked_step (s : ExportSink) (ins : List (List Value)) (v : V) :
    s.unticked.step ins v = ((s.step ins v).1.unticked, (s.step ins v).2) := by
  have hselected : s.unticked.selected ins = s.selected ins := rfl
  simp only [step, hselected]
  simp only [unticked]
  split
  · split <;> rfl
  · rfl

theorem unticked_endRun (s : ExportSink) (v : V) :
    s.unticked.endRun v = ((s.endRun v).1.unticked, (s.endRun v).2) := by
  simp only [endRun, unticked]
  split
  · rfl
  · split <;> rfl

end ExportSink

namespace Operator

/-- What operators do without a look at what ticks leave in them. -/
def Unticking (φ : Operator → Frame → Operator × Frame) : Prop :=
  ∀ op f, φ op.unticked f = ((φ op f).1.unticked, (φ op f).2)

theorem unticking_beginRun : Unticking beginRun := by
  rintro ⟨inputs, outputs, gate, kind⟩ f
  cases kind with
  | rateMonitor m => simp only [unticked, Kind.unticked, beginRun, m.unticked_beginRun]
  | exportSink s => simp only [unticked, Kind.unticked, beginRun, s.unticked_beginRun]
  | _ => rfl

theorem unticking_endRun : Unticking endRun := by
  rintro ⟨inputs, outputs, gate, kind⟩ f
  cases kind with
  | exportSink s => simp only [unticked, Kind.unticked, endRun, s.unticked_endRun]
  | _ => rfl

theorem unticking_compute : Unticking compute := by
  rintro ⟨inputs, outputs, gate, kind⟩ f
  cases kind with
  | rateMonitor m =>
    simp only [unticked, Kind.unticked, compute, inputValues, m.unticked_step]
  | exportSink s =>
    simp only [unticked, Kind.unticked, compute, inputValues, s.unticked_step]
  | planeHistogram h =>
    simp only [unticked, Kind.unticked, compute]
    split
    · split <;> rfl
    · rfl
  | difference | equation | conditionFilter | rectangleFilter | expression
  | rectangleCondition | polygonCondition =>
    simp only [unticked, Kind.unticked, compute]
    split <;> rfl
  | _ => rfl

theorem unticking_step : Unticking step := by
  intro op f
  have hopen : op.unticked.isOpen f.bits = op.isOpen f.bits := rfl
  rw [step, step, hopen]
  split
  · exact unticking_compute op f
  · rfl

theorem unticked_tick (op : Operator) (st : Store) : (op.tick st).unticked = op.unticked := by
  obtain ⟨inputs, outputs, gate, kind⟩ := op
  cases kind with
  | rateMonitor m => simp only [unticked, tick, Kind.unticked, m.unticked_tick]
  | _ => rfl

end Operator

theorem Slot.mapOperators_unticked {φ : Operator → Frame → Operator × Frame}
    (hφ : Operator.Unticking φ) (ns : List (Numbered RankedOperator)) (f : Frame) :
    mapOperators φ (ns.map (Numbered.map RankedOperator.unticked)) f =
      ((mapOperators φ ns f).1.map (Numbered.map RankedOperator.unticked),
        (mapOperators φ ns f).2) := by
  induction ns generalizing f with
  | nil => rfl
  | cons n ns ih =>
    have hop := hφ n.node.operator f
    rw [List.map_cons, mapOperators_cons, mapOperators_cons, List.map_cons]
    simp only [Numbered.map, RankedOperator.unticked, hop, ih]

theorem Slot.unticked_mapTick (ns : List (Numbered RankedOperator)) (f : Frame) :
    (mapOperators (fun op f => (op.tick f.store, f)) ns f).1.map
      (Numbered.map RankedOperator.unticked) = ns.map (Numbered.map RankedOperator.unticked) := by
  induction ns generalizing f with
  | nil => rfl
  | cons n ns ih =>
    rw [mapOperators_cons, List.map_cons, List.map_cons, ih]
    simp only [Numbered.map, RankedOperator.unticked, Operator.unticked_tick]

namespace Graph

variable {φ : Graph → Slot → Graph × Slot}

/-- What is done in a slot without a look at what ticks leave in it. -/
def Unticking (φ : Graph → Slot → Graph × Slot) : Prop :=
  ∀ g s, φ g.unticked s.unticked = ((φ g s).1.unticked, (φ g s).2.unticked)

theorem unticking_beginRunSlot : Unticking beginRunSlot := by
  intro g s
  have hops := Slot.mapOperators_unticked Operator.unticking_beginRun s.operators
  simp only [beginRunSlot, Slot.unticked]
  simp only [unticked, withStore, frame, hops]
  rfl

theorem unticking_beginEventSlot : Unticking beginEventSlot := fun _ _ => rfl

theorem unticking_feedSlot (moduleIndex : Nat) (words : List UInt32) :
    Unticking (feedSlot moduleIndex words) := fun _ _ => rfl

theorem unticking_endEventSlot : Unticking endEventSlot := by
  intro g s
  have hops := Slot.mapOperators_unticked Operator.unticking_step s.operators
  simp only [endEventSlot, Slot.unticked]
  simp only [unticked, withFrame, frame, hops]

theorem unticking_endRunSlot : Unticking endRunSlot := by
  intro g s
  have hops := Slot.mapOperators_unticked Operator.unticking_endRun s.operators
  simp only [endRunSlot, Slot.unticked]
  simp only [unticked, withFrame, frame, hops]

theorem unticked_onSlot (hφ : Unticking φ) (g : Graph) (i : Nat) :
    g.unticked.onSlot i φ = (g.onSlot i φ).unticked := by
  have hslot : g.unticked.slots[i]? = g.slots[i]?.map Slot.unticked := List.getElem?_map
  cases hs : g.slots[i]? with
  | none =>
    rw [hs] at hslot
    rw [onSlot_of_none hs, onSlot_of_none hslot]
  | some s =>
    rw [hs] at hslot
    rw [onSlot_of_some hs, onSlot_of_some hslot, hφ g s]
    simp only [unticked, List.map_set]

theorem unticked_onSlots (hφ : Unticking φ) (g : Graph) :
    g.unticked.onSlots φ = (g.onSlots φ).unticked := by
  have hfold : ∀ (is : List Nat) (g : Graph), is.foldl (fun g i => g.onSlot i φ) g.unticked =
      (is.foldl (fun g i => g.onSlot i φ) g).unticked := by
    intro is
    induction is with
    | nil => exact fun _ => rfl
    | cons i is ih =>
      intro g
      rw [List.foldl_cons, List.foldl_cons, unticked_onSlot hφ, ih]
  have hlength : g.unticked.slots.length = g.slots.length := List.length_map _
  rw [onSlots, onSlots, hlength]
  exact hfold _ g

theorem unticked_tickSlot (g : Graph) (i : Nat) : (g.onSlot i tickSlot).unticked = g.unticked := by
  cases hs : g.slots[i]? with
  | none => rw [onSlot_of_none hs]
  | some s =>
    have hmap : ((tickSlot g s).2).unticked = s.unticked := by
      simp only [tickSlot, Slot.unticked, Slot.unticked_mapTick]
    have hslot : (g.slots.map Slot.unticked)[i]? = some s.unticked := by
      rw [List.getElem?_map, hs, Option.map_some]
    obtain ⟨hlt, hget⟩ := List.getElem?_eq_some_iff.1 hslot
    rw [onSlot_of_some hs]
    simp only [unticked, List.map_set, hmap]
    simp only [tickSlot, ← hget, List.set_getElem_self]

theorem unticked_tick (g : Graph) : g.tick.unticked = g.unticked := by
  have hround : (g.onSlots tickSlot).unticked = g.unticked :=
    onSlots_induction (Q := fun h => h.unticked = g.unticked)
      (fun h i hh => (unticked_tickSlot h i).trans hh) rfl
  exact hround

theorem unticked_apply {c : RunCall} (hc : c.isTick = false) (g : Graph) :
    c.apply g.unticked = (c.apply g).unticked := by
  cases c with
  | beginRun =>
    simp only [RunCall.apply, beginRun, unticked_onSlots unticking_beginRunSlot]
    rfl
  | endRun =>
    simp only [RunCall.apply, endRun, unticked_onSlots unticking_endRunSlot]
    rfl
  | during c =>
    cases c with
    | beginEvent event => exact unticked_onSlot unticking_beginEventSlot g event
    | feed event moduleIndex words =>
      exact unticked_onSlot (unticking_feedSlot moduleIndex words) g event
    | endEvent event => exact unticked_onSlot unticking_endEventSlot g event
    | tick => cases hc

theorem unticked_filter (calls : List RunCall) (g : Graph) :
    (calls.foldl RunCall.apply g).unticked =
      (calls.filter fun c => !c.isTick).foldl RunCall.apply g.unticked := by
  induction calls generalizing g with
  | nil => rfl
  | cons c calls ih =>
    rw [List.foldl_cons, ih]
    cases hc : c.isTick with
    | true =>
      -- the tick leaves nothing but what is taken away
      have htick : (c.apply g).unticked = g.unticked := by
        rcases c with _ | (_ | _ | _ | _) | _
        case during.tick => exact unticked_tick g
        all_goals cases hc
      rw [htick, List.filter_cons_of_neg (by simp [hc])]
    | false =>
      rw [← unticked_apply hc, List.filter_cons_of_pos (by simp [hc]), List.foldl_cons]

/-- Runs that differ in ticks alone end alike but for the samples of rate monitors that count a flow
and the counts of ticks. -/
theorem unticked_run (g : Graph) (calls calls' : List RunCall)
    (h : calls.filter (fun c => !c.isTick) = calls'.filter fun c => !c.isTick) :
    (calls.foldl RunCall.apply g).unticked = (calls'.foldl RunCall.apply g).unticked := by
  rw [unticked_filter, unticked_filter, h]

/-- A monitor that counts the valid values of one element. -/
def flowMonitor : List BuildCall :=
  [.pushPipe 1 .zero .zero, .makeOperator (.rateMonitor ⟨⟨0, 1⟩, ⟨4, 1⟩, ⟨8, 1⟩⟩ [.standard] .flow),
    .addOperator 0 0 none]

/-- One tick before an event and one inside of it. -/
theorem unticked_run_flowMonitor :
    let ticking := [RunCall.beginRun, .during .tick, .during (.beginEvent 0), .during .tick,
      .during (.endEvent 0)]
    let plain := [RunCall.beginRun, .during (.beginEvent 0), .during (.endEvent 0)]
    let g := (Workbench.after 4096 .batched flowMonitor).plan.build .fresh
    ticking.filter (fun c => !c.isTick) = plain.filter (fun c => !c.isTick) ∧
      (ticking.foldl RunCall.apply g).ticks = 2 ∧
      (ticking.foldl RunCall.apply g).unticked = (plain.foldl RunCall.apply g).unticked :=
  ⟨rfl, by decide +kernel, unticked_run _ _ _ rfl⟩

end Graph

end Readout
