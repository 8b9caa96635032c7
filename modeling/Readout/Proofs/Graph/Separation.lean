import Readout.Proofs.Graph.Contained

/-!
# Events do not interfere

All events share one store, one queue of bins and one state of the graph. A call that names an
event nevertheless works on what the nodes of its slot own and on nothing else, and what it makes
of that depends on nothing else. So the calls of other events can be left out of a run without a
difference for the event, in whatever way the calls are mixed.
-/
namespace Readout

namespace Call

/-- The event that a call names. Ticks name none. -/
def event? : Call → Option Nat
  | beginEvent e | feed e _ _ | endEvent e => some e
  | tick => none

/-- The calls that an event takes part in: those that name it, and ticks. -/
def concerns (event : Nat) (c : Call) : Bool := c.event?.all (· = event)

end Call

namespace Graph

/-- The same contents in the slots and the files of a region. -/
structure AgreeOn (R : Region) (g g' : Graph) : Prop where
  store : g.arena.store.AgreeOn R.slots g'.arena.store
  volume : g.volume.AgreeOn R.files g'.volume

/-- Two graphs that do not differ in an event: in the nodes and condition bits of its slot, in
what these nodes own, and in a set of files. -/
structure SameEvent (event : Nat) (F : List String → Prop) (g g' : Graph) : Prop where
  slot_eq : g.slots[event]? = g'.slots[event]?
  contents : ∀ s ∈ g.slots[event]?, g.AgreeOn (s.part F) g'

/-- The files that no operator of another event has open. -/
def freeFiles (g : Graph) (event : Nat) (place : List String) : Prop :=
  ∀ i t, i ≠ event → g.slots[i]? = some t → ∀ op ∈ t.nodes, ¬ op.Opens place

/-- A function of slots that works on what the nodes of its slot own, and opens no file. -/
structure Local (φ : Graph → Slot → Graph × Slot) : Prop extends Confined φ where
  opens : ∀ g s, ∀ op ∈ (φ g s).2.nodes, ∀ place, op.Opens place →
    ∃ op' ∈ s.nodes, op'.Opens place
  volume : ∀ (g : Graph) s, ∀ R : Region, R.Outside s → g.volume.AgreeOn R.files (φ g s).1.volume
  agree : ∀ (g g' : Graph) s F, s.Contained g.arena.store.slots → g.filler = g'.filler →
    g.AgreeOn (s.part F) g' →
      (φ g s).2 = (φ g' s).2 ∧ Graph.AgreeOn (s.part F) (φ g s).1 (φ g' s).1

section Slots

variable {F : List String → Prop} {s : Slot}

/-- An operator of the slot that opens a file after a phase has opened it before. -/
theorem opens_mapOperators {φ : Operator → Frame → Operator × Frame}
    (hφ : ∀ op f place, (φ op f).1.Opens place → op.Opens place)
    (ns : List (Numbered RankedOperator)) (f : Frame) :
    ∀ n ∈ (Slot.mapOperators φ ns f).1, ∀ place, n.node.operator.Opens place →
      ∃ m ∈ ns, m.node.operator.Opens place := by
  induction ns generalizing f with
  | nil => exact fun n hn => by cases hn
  | cons n ns ih =>
    intro m hm place hopen
    rw [Slot.mapOperators_cons] at hm
    rcases List.mem_cons.1 hm with rfl | hm
    · exact ⟨n, List.mem_cons_self, hφ _ _ _ hopen⟩
    · obtain ⟨k, hk, hopen⟩ := ih _ m hm place hopen
      exact ⟨k, List.mem_cons_of_mem n hk, hopen⟩

theorem frame_agree {g g' : Graph} (h : g.AgreeOn (s.part F) g') :
    (g.frame s).AgreeOn (s.part F) (g'.frame s) :=
  ⟨h.store, rfl, fun _ _ => rfl, h.volume⟩

theorem local_beginEventSlot : Local beginEventSlot := by
  refine ⟨confined_beginEventSlot, fun _ s op ho place hop => ⟨op, ho, hop⟩,
    fun _ _ _ _ => .refl _ _, fun g g' s F _ _ h => ?_⟩
  obtain ⟨hsources, hstore⟩ :=
    Slot.mapSources_agree (fun n _ _ hst => n.agree_beginEvent hst) s.sources h.store
  simp only [beginEventSlot, hsources, true_and]
  exact ⟨hstore, h.volume⟩

theorem local_feedSlot (moduleIndex : Nat) (words : List UInt32) :
    Local (feedSlot moduleIndex words) := by
  refine ⟨confined_feedSlot moduleIndex words, fun _ s op ho place hop => ⟨op, ho, hop⟩,
    fun _ _ _ _ => .refl _ _, fun g g' s F hs _ h => ?_⟩
  have hseen : ∀ n ∈ s.sources, Source.SeenIn
      { n.node with decoder := (n.node.decoder.decode words).2.1 } (s.part F).slots
        (n.node.decoder.decode words).1 := fun n hn =>
    (hs.sources n hn).seenIn words fun p hp i hi => ⟨p.data, Slot.source_owned_subset hn
      (List.mem_append_left _ (List.mem_flatMap.2 ⟨p, hp, p.data_mem_spans⟩)), hi⟩
  obtain ⟨hsources, hstore⟩ := Slot.feedSources_agree moduleIndex words s.sources hseen h.store
  simp only [feedSlot, hsources, true_and]
  exact ⟨hstore, h.volume⟩

theorem local_endEventSlot : Local endEventSlot := by
  refine ⟨confined_endEventSlot, fun g s op ho place hop => ?_,
    fun g s R hR => (Slot.mapOperators_step_frame hR.operators (g.frame s)).volume,
    fun g g' s F hs hq h => ?_⟩
  · obtain ⟨n, hn, rfl⟩ := List.mem_map.1 ho
    obtain ⟨m, hm, hopen⟩ :=
      opens_mapOperators (fun _ _ _ => Operator.opens_step) s.operators _ n hn place hop
    exact ⟨_, List.mem_map_of_mem hm, hopen⟩
  · obtain ⟨hops, hframe, hfiller⟩ := Slot.mapOperators_step_agree s.operators
      (fun n hn _ => hs.reads_part (List.mem_map_of_mem hn) F) (fun _ _ _ _ => trivial)
      (f := g.frame s) (g := g'.frame s) hq (frame_agree h)
    have hbits := ConditionBits.eq_of_test hframe.length_eq fun i => hframe.bits i trivial
    have hflush := Filler.flush_agree (Slot.mapOperators Operator.step s.operators
      (g.frame s)).2.filler hframe.store
    refine ⟨?_, ?_, hframe.volume⟩
    · simp only [endEventSlot, hops, hbits]
    · simp only [endEventSlot, withFrame]
      rw [← hfiller]
      exact hflush

theorem local_tickSlot : Local tickSlot := by
  refine ⟨confined_tickSlot, fun g s op ho place hop => ?_, fun _ _ _ _ => .refl _ _,
    fun g g' s F _ _ h => ⟨?_, h⟩⟩
  · obtain ⟨n, hn, rfl⟩ := List.mem_map.1 ho
    obtain ⟨m, hm, hopen⟩ :=
      opens_mapOperators (fun _ _ _ => Operator.opens_tick) s.operators _ n hn place hop
    exact ⟨_, List.mem_map_of_mem hm, hopen⟩
  · have hops := (Slot.mapOperators_related s.operators (φ := fun op f => (op.tick f.store, f))
      (Q := fun f f' => f.AgreeOn (s.part F) f') (fun n hn f f' hf => by
        refine ⟨Operator.tick_eq fun p hp => hf.store.values_eq fun i hi => ⟨p, ?_, hi⟩, hf⟩
        refine Slot.owned_subset (List.mem_map_of_mem hn) ?_
        exact List.mem_append_left _ (List.mem_append_right _ hp)) (frame_agree h)).1
    simp only [tickSlot, hops]

theorem local_endRunSlot : Local endRunSlot := by
  refine ⟨confined_endRunSlot, fun g s op ho place hop => ?_,
    fun g _ _ hR => (endRunSlot_frame hR.operators g).volume, fun g g' s F _ _ h => ?_⟩
  · obtain ⟨n, hn, rfl⟩ := List.mem_map.1 ho
    obtain ⟨m, hm, hopen⟩ :=
      opens_mapOperators (fun _ _ _ => Operator.opens_endRun) s.operators _ n hn place hop
    exact ⟨_, List.mem_map_of_mem hm, hopen⟩
  · obtain ⟨hops, hframe⟩ := Slot.mapOperators_related s.operators (φ := Operator.endRun)
      (fun _ _ _ _ => Operator.endRun_agree) (frame_agree h)
    simp only [endRunSlot, hops, true_and]
    exact ⟨hframe.store, hframe.volume⟩

end Slots

/-- A graph between two calls, whose other events leave a set of files alone. -/
structure Between (event : Nat) (F : List String → Prop) (g : Graph) : Prop extends Idling g where
  files : ∀ place, F place → g.freeFiles event place

/-- Two graphs of one layout between two calls that do not differ in an event. -/
structure Paired (event : Nat) (F : List String → Prop) (g g' : Graph) : Prop where
  left : Between event F g
  right : Between event F g'
  layout : g.layout = g'.layout
  same : SameEvent event F g g'

variable {event i : Nat} {F : List String → Prop} {g g' : Graph}
  {φ : Graph → Slot → Graph × Slot}

theorem Between.onSlot (h : Between event F g) (hφ : Local φ) (i : Nat) :
    Between event F (g.onSlot i φ) := by
  refine ⟨h.toIdling.onSlot hφ.toConfined i, fun place hp j t hj ht op ho hopen => ?_⟩
  rw [slots_onSlot hφ.keeps] at ht
  split at ht
  · obtain ⟨s, hs, rfl⟩ := Option.map_eq_some_iff.1 ht
    obtain ⟨op', ho', hopen'⟩ := hφ.opens g s op ho place hopen
    exact h.files place hp j s hj hs op' ho' hopen'
  · exact h.files place hp j t hj ht op ho hopen

/-- A visit of another slot is not noticed. -/
theorem Between.foreign (h : Between event F g) (hφ : Local φ) (hi : i ≠ event) :
    SameEvent event F g (g.onSlot i φ) := by
  refine ⟨?_, fun s hs => ?_⟩
  · rw [slots_onSlot hφ.keeps, if_neg hi]
  · cases ht : g.slots[i]? with
    | none =>
      rw [onSlot_of_none ht]
      exact ⟨.refl _ _, .refl _ _⟩
    | some t =>
      have houtside := h.contained.wired.outside hs ht (Ne.symm hi)
        fun op ho p hp hopen => h.files p hp i t hi ht op ho hopen
      have hstore := hφ.store g t h.queue _ houtside
      have hvolume := hφ.volume g t _ houtside
      rw [onSlot_of_some ht]
      exact ⟨hstore, hvolume⟩

theorem SameEvent.trans {g'' : Graph} (h : SameEvent event F g g') (h' : SameEvent event F g' g'') :
    SameEvent event F g g'' := by
  refine ⟨h.slot_eq.trans h'.slot_eq, fun s hs => ?_⟩
  have hl := h.contents s hs
  have hr := h'.contents s (h.slot_eq ▸ hs)
  exact ⟨hl.store.trans hr.store, hl.volume.trans hr.volume⟩

theorem SameEvent.symm (h : SameEvent event F g g') : SameEvent event F g' g := by
  refine ⟨h.slot_eq.symm, fun s hs => ?_⟩
  have hs := h.contents s (h.slot_eq ▸ hs)
  exact ⟨hs.store.symm, hs.volume.symm⟩

theorem filler_eq_of_layout (hl : g.layout = g'.layout) (hq : g.filler.queue = [])
    (hq' : g'.filler.queue = []) : g.filler = g'.filler := by
  have hempty : g.filler.emptied = g'.filler.emptied := congrArg Layout.filler hl
  rw [Filler.emptied, ← hq] at hempty
  rw [Filler.emptied, ← hq'] at hempty
  exact hempty

theorem Paired.left_onSlot (h : Paired event F g g') (hφ : Local φ) (hi : i ≠ event) :
    Paired event F (g.onSlot i φ) g' :=
  ⟨h.left.onSlot hφ i, h.right, (layout_onSlot hφ.keeps g i).trans h.layout,
    (h.left.foreign hφ hi).symm.trans h.same⟩

/-- A visit of the slot of the event makes the same of both graphs. -/
theorem Paired.same_onSlot (h : Paired event F g g') (hφ : Local φ) :
    SameEvent event F (g.onSlot event φ) (g'.onSlot event φ) := by
  cases hs : g.slots[event]? with
  | none =>
    rw [onSlot_of_none hs, onSlot_of_none (h.same.slot_eq ▸ hs)]
    exact h.same
  | some s =>
    have hs' : g'.slots[event]? = some s := h.same.slot_eq ▸ hs
    have hcontained := h.left.contained.slots s (List.mem_of_getElem? hs)
    have hfiller := filler_eq_of_layout h.layout h.left.queue h.right.queue
    obtain ⟨hslot, hagree⟩ := hφ.agree g g' s F hcontained hfiller (h.same.contents s hs)
    refine ⟨?_, fun t ht => ?_⟩
    · simp only [slots_onSlot hφ.keeps, if_true, hs, hs', Option.map_some, hslot]
    · rw [slots_onSlot hφ.keeps, if_pos rfl, hs] at ht
      obtain rfl := Option.some.inj ht
      rw [Slot.part_of_resting (hφ.keeps.resting g s) F, onSlot_of_some hs, onSlot_of_some hs']
      exact ⟨hagree.store, hagree.volume⟩

theorem Paired.onSlot (h : Paired event F g g') (hφ : Local φ) (i : Nat) :
    Paired event F (g.onSlot i φ) (g'.onSlot i φ) := by
  refine ⟨h.left.onSlot hφ i, h.right.onSlot hφ i, ?_, ?_⟩
  · rw [layout_onSlot hφ.keeps, layout_onSlot hφ.keeps, h.layout]
  · by_cases hi : i = event
    · subst hi
      exact h.same_onSlot hφ
    · exact ((h.left.foreign hφ hi).symm.trans h.same).trans (h.right.foreign hφ hi)

theorem Paired.onSlots (h : Paired event F g g') (hφ : Local φ) :
    Paired event F (g.onSlots φ) (g'.onSlots φ) :=
  onSlots_related (Q := fun _ => Paired event F) (fun i _ _ hk => hk.onSlot hφ i)
    (h.right.contained.count.trans h.left.contained.count.symm) h

/-- Counters of the whole graph belong to no event. -/
theorem Paired.recount (h : Paired event F g g') (b b' : Bool) (m m' n n' : Nat) :
    Paired event F { g with running := b, events := m, ticks := n }
      { g' with running := b', events := m', ticks := n' } :=
  ⟨⟨h.left.recount _ _ _, h.left.files⟩, ⟨h.right.recount _ _ _, h.right.files⟩, h.layout,
    h.same.slot_eq, fun s hs => ⟨(h.same.contents s hs).store, (h.same.contents s hs).volume⟩⟩

theorem Paired.apply (h : Paired event F g g') (c : Call) :
    Paired event F (c.apply g) (c.apply g') := by
  cases c with
  | beginEvent e => exact h.onSlot local_beginEventSlot e
  | feed e moduleIndex words => exact h.onSlot (local_feedSlot moduleIndex words) e
  | endEvent e => exact h.onSlot local_endEventSlot e
  | tick => exact (h.onSlots local_tickSlot).recount _ _ _ _ _ _

theorem Paired.left_apply (h : Paired event F g g') {c : Call} (hc : c.concerns event = false) :
    Paired event F (c.apply g) g' := by
  have hne : ∀ e ∈ c.event?, e ≠ event := by
    intro e he
    rw [Call.concerns, he] at hc
    simpa using hc
  cases c with
  | beginEvent e => exact h.left_onSlot local_beginEventSlot (hne e rfl)
  | feed e moduleIndex words => exact h.left_onSlot (local_feedSlot moduleIndex words) (hne e rfl)
  | endEvent e => exact h.left_onSlot local_endEventSlot (hne e rfl)
  | tick => cases hc

theorem Paired.run (h : Paired event F g g') (calls : List Call) :
    Paired event F (calls.foldl Call.apply g)
      ((calls.filter (Call.concerns event)).foldl Call.apply g') := by
  induction calls generalizing g g' with
  | nil => exact h
  | cons c calls ih =>
    cases hc : c.concerns event with
    | true =>
      rw [List.filter_cons_of_pos hc]
      exact ih (h.apply c)
    | false =>
      rw [List.filter_cons_of_neg (by simp [hc])]
      exact ih (h.left_apply hc)

theorem Paired.endRun (h : Paired event F g g') : Paired event F g.endRun g'.endRun :=
  (h.onSlots local_endRunSlot).recount _ _ _ _ _ _

end Graph

end Readout
