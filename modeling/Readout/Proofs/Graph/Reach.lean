import Readout.Proofs.Checked.Run

/-!
# What a call reaches

A call that names an event goes to the slot of that event. It leaves all other slots as they are,
and of store and volume it changes only what the nodes of its slot own. Between calls no bin is
queued, so nothing of one event is left for the end of another one.
-/
namespace Readout

/-- The spans of all nodes of a slot. -/
def Slot.owned (s : Slot) : List Span :=
  s.sources.flatMap (fun n => n.node.owned) ++ s.nodes.flatMap Operator.owned

theorem Slot.owned_resting (s : Slot) : s.resting.owned = s.owned := by
  rw [owned, owned, nodes_resting, List.flatMap_map]
  simp only [resting, List.flatMap_map, Operator.owned_resting]
  rfl

/-- The nodes of all slots own spans of their own, inside the store. -/
structure Graph.Wired (g : Graph) : Prop where
  apart : (g.slots.flatMap Slot.owned).Pairwise Span.Apart
  fits : ∀ s ∈ g.slots, ∀ p ∈ s.owned, p.stop ≤ g.arena.store.slots

theorem Graph.Wired.of_layout {g g' : Graph} (h : g.Wired) (hl : g'.layout = g.layout) :
    g'.Wired := by
  have hslots : g'.slots.map Slot.resting = g.slots.map Slot.resting :=
    congrArg Graph.Layout.slots hl
  have howned : g'.slots.map Slot.owned = g.slots.map Slot.owned := by
    have hmap := congrArg (List.map Slot.owned) hslots
    simpa only [List.map_map, Function.comp_def, Slot.owned_resting] using hmap
  constructor
  · rw [List.flatMap_def, howned, ← List.flatMap_def]
    exact h.apart
  · intro s hs p hp
    obtain ⟨t, ht, hts⟩ := List.mem_map.1 (howned ▸ List.mem_map_of_mem hs)
    rw [show g'.arena.store.slots = g.arena.store.slots from congrArg Graph.Layout.room hl]
    exact h.fits t ht p (hts ▸ hp)

open Workbench in
theorem Workbench.Sound.wired {w : Workbench} (h : w.Sound) (volume : Volume) :
    (w.plan.build volume).Wired := by
  have hslot : ∀ e : EventPlan, e.slot.owned.Perm
      (e.sources.flatMap Source.owned ++ e.operators.flatMap fun o => o.operator.owned) := by
    intro e
    refine List.Perm.append ?_ ?_
    · have hperm := (sortBy_perm Source.moduleIndex e.sources).map Numbered.node
      rw [map_node_numbered] at hperm
      have hflat := hperm.flatMap_right Source.owned
      rw [List.flatMap_map] at hflat
      exact hflat
    · simpa only [List.flatMap_map] using (nodes_slot_perm e).flatMap_right Operator.owned
  have hperm : ((w.plan.build volume).slots.flatMap Slot.owned).Perm
      (w.plan.events.flatMap (fun e => e.sources.flatMap Source.owned) ++
        w.plan.events.flatMap fun e => e.operators.flatMap fun o => o.operator.owned) := by
    rw [Plan.build, List.flatMap_map]
    exact (List.Perm.flatMap_left _ fun e _ => hslot e).trans
      (List.flatMap_append_perm _ _ _).symm
  have hsub : (w.plan.events.flatMap (fun e => e.sources.flatMap Source.owned) ++
      w.plan.events.flatMap fun e => e.operators.flatMap fun o => o.operator.owned).Sublist
        w.owned := by
    rw [owned, allSources, allOperators, List.flatMap_append, List.flatMap_append,
      List.flatMap_assoc, List.flatMap_assoc]
    simp only [List.flatMap_map]
    exact ((List.sublist_append_right _ _).trans (List.sublist_append_right _ _)).append
      (List.sublist_append_right _ _)
  refine ⟨(h.placed.apart.sublist hsub).perm hperm.symm fun k => k.symm, fun s hs p hp => ?_⟩
  exact h.stop_le (hsub.subset (hperm.subset (List.mem_flatMap.2 ⟨s, hs, hp⟩)))

/-- The region holds nothing that a node of the slot writes. -/
structure Region.Outside (R : Region) (s : Slot) : Prop where
  sources : ∀ n ∈ s.sources, n.node.Spares R.slots
  operators : ∀ n ∈ s.operators, R.Beyond n.node.operator

namespace Slot

variable {P B : Nat → Prop} {R : Region}

theorem mapSources_frame {φ : Source → Store → Source × Store}
    (hφ : ∀ (s : Source) (st : Store), s.Spares P → st.AgreeOn P (φ s st).2)
    {ns : List (Numbered Source)} (hns : ∀ n ∈ ns, n.node.Spares P) (st : Store) :
    st.AgreeOn P (mapSources φ ns st).2 := by
  induction ns generalizing st with
  | nil => exact .refl P st
  | cons n ns ih =>
    obtain ⟨hn, hns⟩ := List.forall_mem_cons.1 hns
    exact (hφ n.node st hn).trans (ih hns _)

theorem feedSources_frame (moduleIndex : Nat) (words : List UInt32) {ns : List (Numbered Source)}
    (hns : ∀ n ∈ ns, n.node.Spares P) (st : Store) :
    st.AgreeOn P (feedSources moduleIndex words ns st).2 := by
  induction ns generalizing st with
  | nil => exact .refl P st
  | cons n ns ih =>
    obtain ⟨hn, hns⟩ := List.forall_mem_cons.1 hns
    rw [feedSources]
    split
    · exact (Source.feed_frame hn st words).trans (ih hns _)
    · split
      · exact .refl P st
      · exact ih hns st

theorem within_mapOperators {ns : List (Numbered RankedOperator)} {f : Frame}
    (hns : ∀ n ∈ ns, ∀ p ∈ n.node.operator.kind.bins, ∀ i ∈ p, B i) (hf : f.filler.Within B) :
    (mapOperators Operator.step ns f).2.filler.Within B := by
  induction ns generalizing f with
  | nil => exact hf
  | cons n ns ih =>
    obtain ⟨hn, hns⟩ := List.forall_mem_cons.1 hns
    exact ih hns (Operator.within_step hf hn)

theorem mapOperators_bins_outside {ns : List (Numbered RankedOperator)}
    (hR : ∀ n ∈ ns, R.Beyond n.node.operator) :
    ∀ n ∈ ns, ∀ p ∈ n.node.operator.kind.bins, ∀ i ∈ p, ¬ R.slots i := fun n hn p hp =>
  (hR n hn).slots p (List.mem_append_right _ hp)

end Slot

namespace Graph

variable {R : Region} {φ : Graph → Slot → Graph × Slot} {g : Graph} {s : Slot}

/-- A function of slots that writes no slot of the store but those of the nodes that it is given,
and leaves no bin in the queue. -/
structure Confined (φ : Graph → Slot → Graph × Slot) : Prop where
  keeps : Keeps φ
  queue : ∀ g s, g.filler.queue = [] → (φ g s).1.filler.queue = []
  store : ∀ (g : Graph) s, g.filler.queue = [] → ∀ R : Region, R.Outside s →
    g.arena.store.AgreeOn R.slots (φ g s).1.arena.store

/-- The end of an event changes nothing beyond what the operators of its slot own. -/
theorem endEventSlot_frame (hR : ∀ n ∈ s.operators, R.Beyond n.node.operator)
    (hq : g.filler.queue = []) :
    (g.frame s).AgreeOn R ((endEventSlot g s).1.frame (endEventSlot g s).2) := by
  have hsteps := Slot.mapOperators_step_frame hR (g.frame s)
  have hqueue : (Slot.mapOperators Operator.step s.operators (g.frame s)).2.filler.Within
      fun i => ¬ R.slots i :=
    Slot.within_mapOperators (Slot.mapOperators_bins_outside hR) (Filler.within_nil hq)
  have hflush := Filler.flush_frame hqueue (P := R.slots) (fun _ hi hn => hn hi)
    (Slot.mapOperators Operator.step s.operators (g.frame s)).2.store
  exact ⟨hsteps.store.trans hflush, hsteps.length_eq, hsteps.bits, hsteps.volume⟩

theorem queue_phase {ψ : Operator → Frame → Operator × Frame} (hψ : Operator.Phase ψ)
    (ns : List (Numbered RankedOperator)) {f : Frame} (hf : f.filler.queue = []) :
    (Slot.mapOperators ψ ns f).2.filler.queue = [] :=
  (congrArg Filler.queue (Slot.mapOperators_phase hψ ns f).1).trans hf

theorem confined_beginRunSlot : Confined beginRunSlot := by
  refine ⟨keeps_beginRunSlot, fun g s hq => queue_phase Operator.phase_beginRun s.operators hq,
    fun g s _ R hR => ?_⟩
  have hsources := Slot.mapSources_frame (φ := fun n st => (n, n.beginRun st))
    (fun _ st hn => Source.beginRun_frame hn st) hR.sources g.arena.store
  have hops : ∀ f : Frame,
      f.store.AgreeOn R.slots (Slot.mapOperators Operator.beginRun s.operators f).2.store :=
    Slot.mapOperators_store fun n hn f => Operator.beginRun_frame (fun p hp =>
      (hR.operators n hn).slots p (n.node.operator.cleared_subset hp)) f
  exact hsources.trans (hops ((g.withStore (Slot.mapSources (fun n st => (n, n.beginRun st))
    s.sources g.arena.store).2).frame s))

theorem confined_beginEventSlot : Confined beginEventSlot :=
  ⟨keeps_beginEventSlot, fun _ _ => id, fun g _ _ _ hR =>
    Slot.mapSources_frame (fun _ st hn => Source.beginEvent_frame hn st) hR.sources g.arena.store⟩

theorem confined_feedSlot (moduleIndex : Nat) (words : List UInt32) :
    Confined (feedSlot moduleIndex words) :=
  ⟨keeps_feedSlot moduleIndex words, fun _ _ => id, fun g _ _ _ hR =>
    Slot.feedSources_frame moduleIndex words hR.sources g.arena.store⟩

theorem confined_endEventSlot : Confined endEventSlot :=
  ⟨keeps_endEventSlot, fun _ _ _ => rfl, fun _ _ hq _ hR =>
    (endEventSlot_frame hR.operators hq).store⟩

theorem confined_tickSlot : Confined tickSlot :=
  ⟨keeps_tickSlot, fun _ _ => id, fun _ _ _ _ _ => .refl _ _⟩

theorem endRunSlot_frame (hR : ∀ n ∈ s.operators, R.Beyond n.node.operator) (g : Graph) :
    (g.frame s).AgreeOn R (Slot.mapOperators Operator.endRun s.operators (g.frame s)).2 :=
  Slot.mapOperators_frame (fun n hn => Operator.endRun_frame (hR n hn)) (g.frame s)

theorem confined_endRunSlot : Confined endRunSlot :=
  ⟨keeps_endRunSlot, fun _ s hq => queue_phase Operator.phase_endRun s.operators hq,
    fun g _ _ _ hR => (endRunSlot_frame hR.operators g).store⟩

theorem onSlot_of_none {event : Nat} (hs : g.slots[event]? = none) : g.onSlot event φ = g := by
  simp only [onSlot, hs]

theorem onSlot_of_some {event : Nat} (hs : g.slots[event]? = some s) :
    g.onSlot event φ = { (φ g s).1 with slots := (φ g s).1.slots.set event (φ g s).2 } := by
  simp only [onSlot, hs]

theorem slots_onSlot (hφ : Keeps φ) (g : Graph) (event j : Nat) :
    (g.onSlot event φ).slots[j]? =
      if event = j then g.slots[j]?.map fun s => (φ g s).2 else g.slots[j]? := by
  cases hs : g.slots[event]? with
  | none =>
    rw [onSlot_of_none hs]
    split
    · next h =>
      rw [← h, hs]
      rfl
    · rfl
  | some s =>
    rw [onSlot_of_some hs]
    dsimp only
    rw [hφ.slots, List.getElem?_set]
    split
    · next h =>
      obtain ⟨hlt, -⟩ := List.getElem?_eq_some_iff.1 hs
      rw [← h, hs, if_pos hlt]
      rfl
    · rfl

/-- What each visit of a slot keeps is kept by a round through all slots. -/
theorem onSlots_induction {Q : Graph → Prop} (hQ : ∀ g i, Q g → Q (g.onSlot i φ)) (h : Q g) :
    Q (g.onSlots φ) := by
  have hfold : ∀ (is : List Nat) (g : Graph), Q g → Q (is.foldl (fun g i => g.onSlot i φ) g) := by
    intro is
    induction is with
    | nil => exact fun g hg => hg
    | cons i is ih => exact fun g hg => ih _ (hQ g i hg)
  exact hfold _ g h

/-- A round through two graphs of one size, slot after slot. -/
theorem onSlots_related {Q : Nat → Graph → Graph → Prop} {g g' : Graph}
    (hQ : ∀ i g g', Q i g g' → Q (i + 1) (g.onSlot i φ) (g'.onSlot i φ))
    (hlen : g'.slots.length = g.slots.length) (h : Q 0 g g') :
    Q g.slots.length (g.onSlots φ) (g'.onSlots φ) := by
  have hfold : ∀ n, Q n ((List.range n).foldl (fun g i => g.onSlot i φ) g)
      ((List.range n).foldl (fun g i => g.onSlot i φ) g') := by
    intro n
    induction n with
    | zero => exact h
    | succ n ih =>
      rw [List.range_succ, List.foldl_append, List.foldl_append]
      exact hQ n _ _ ih
  rw [onSlots, onSlots, hlen]
  exact hfold _

theorem forall_slot_onSlot (hφ : Keeps φ) {Q : Slot → Prop} (hQ : ∀ g s, Q s → Q (φ g s).2)
    {j : Nat} (event : Nat) (h : ∀ s ∈ g.slots[j]?, Q s) :
    ∀ s ∈ (g.onSlot event φ).slots[j]?, Q s := by
  intro s hs
  rw [slots_onSlot hφ] at hs
  split at hs
  · obtain ⟨t, ht, rfl⟩ := Option.map_eq_some_iff.1 hs
    exact hQ g t (h t ht)
  · exact h s hs

theorem queue_onSlot (hφ : ∀ g s, g.filler.queue = [] → (φ g s).1.filler.queue = [])
    (g : Graph) (event : Nat) (h : g.filler.queue = []) :
    (g.onSlot event φ).filler.queue = [] := by
  rw [onSlot]
  split
  · exact h
  · next s _ => exact hφ g s h

/-- What each visit of a slot keeps is kept by all calls of a run. -/
theorem apply_induction {Q : Graph → Prop}
    (hvisit : ∀ {φ}, Confined φ → ∀ g i, Q g → Q (g.onSlot i φ))
    (hcount : ∀ g b m n, Q g → Q { g with running := b, events := m, ticks := n })
    (c : RunCall) (h : Q g) : Q (c.apply g) := by
  have hround : ∀ {φ}, Confined φ → Q (g.onSlots φ) := fun hφ => onSlots_induction (hvisit hφ) h
  cases c with
  | beginRun => exact hcount _ _ _ _ (hround confined_beginRunSlot)
  | endRun => exact hcount _ _ _ _ (hround confined_endRunSlot)
  | during c =>
    cases c with
    | beginEvent event => exact hvisit confined_beginEventSlot g event h
    | feed event moduleIndex words => exact hvisit (confined_feedSlot moduleIndex words) g event h
    | endEvent event => exact hvisit confined_endEventSlot g event h
    | tick => exact hcount _ _ _ _ (hround confined_tickSlot)

theorem queue_apply (c : RunCall) (h : g.filler.queue = []) : (c.apply g).filler.queue = [] := by
  exact apply_induction (Q := fun g => g.filler.queue = []) (fun hφ => queue_onSlot hφ.queue)
    (fun _ _ _ _ => id) c h

/-- Between calls no bin is queued. -/
theorem queue_run (calls : List RunCall) (h : g.filler.queue = []) :
    (calls.foldl RunCall.apply g).filler.queue = [] := by
  induction calls generalizing g with
  | nil => exact h
  | cons c calls ih => exact ih (queue_apply c h)

theorem queue_build (p : Plan) (volume : Volume) : (p.build volume).filler.queue = [] := by
  rw [Plan.build]
  cases p.strategy <;> rfl

/-- A slot stays what it was, but for the traces of a run. -/
theorem slot_resting_run {calls : List RunCall} {event : Nat}
    (hs : (calls.foldl RunCall.apply g).slots[event]? = some s) :
    ∃ t, g.slots[event]? = some t ∧ s.resting = t.resting := by
  have hslots := congrArg (fun l => l.slots[event]?) (g.layout_run calls)
  simp only [layout, List.getElem?_map, hs, Option.map_some] at hslots
  obtain ⟨t, ht, hts⟩ := Option.map_eq_some_iff.1 hslots.symm
  exact ⟨t, ht, hts.symm⟩

/-- The event has begun and did not end since. -/
def Underway (event : Nat) (runs : List RunCall) : Prop :=
  ∃ before during, runs = before ++ .during (.beginEvent event) :: during ∧
    .during (.endEvent event) ∉ during

theorem bits_apply {event : Nat} {c : RunCall} (hc : c ≠ .during (.endEvent event))
    (h : ∀ s ∈ g.slots[event]?, ∀ i, s.bits.test i = false) :
    ∀ s ∈ (c.apply g).slots[event]?, ∀ i, s.bits.test i = false := by
  have hround : ∀ {φ : Graph → Slot → Graph × Slot}, Keeps φ →
      (∀ g s, (∀ i, s.bits.test i = false) → ∀ i, (φ g s).2.bits.test i = false) →
        ∀ s ∈ (g.onSlots φ).slots[event]?, ∀ i, s.bits.test i = false := fun hk hφ =>
    onSlots_induction (Q := fun g => ∀ s ∈ g.slots[event]?, ∀ i, s.bits.test i = false)
      (fun g i hg => forall_slot_onSlot hk hφ i hg) h
  cases c with
  | beginRun => exact hround keeps_beginRunSlot fun g s _ => s.bits.test_clear
  | endRun => exact hround keeps_endRunSlot fun g s hs => hs
  | during c =>
    cases c with
    | beginEvent e =>
      exact forall_slot_onSlot keeps_beginEventSlot (fun g s _ => s.bits.test_clear) e h
    | feed e moduleIndex words =>
      exact forall_slot_onSlot (keeps_feedSlot moduleIndex words) (fun g s hs => hs) e h
    | endEvent e =>
      have hne : e ≠ event := fun he => hc (he ▸ rfl)
      intro s hs
      refine h s ?_
      rwa [← if_neg hne (t := g.slots[event]?.map fun s => (endEventSlot g s).2)
        (e := g.slots[event]?), ← slots_onSlot keeps_endEventSlot]
    | tick => exact hround keeps_tickSlot fun g s hs => hs

theorem bits_during {event : Nat} {during : List RunCall}
    (hend : .during (.endEvent event) ∉ during)
    (h : ∀ s ∈ g.slots[event]?, ∀ i, s.bits.test i = false) :
    ∀ s ∈ (during.foldl RunCall.apply g).slots[event]?, ∀ i, s.bits.test i = false := by
  induction during generalizing g with
  | nil => exact h
  | cons c during ih =>
    rw [List.mem_cons, not_or] at hend
    exact ih hend.2 (bits_apply (Ne.symm hend.1) h)

/-- While an event is under way, none of its condition bits is set. -/
theorem bits_underway {event : Nat} {runs : List RunCall} (ho : Underway event runs)
    (hs : (runs.foldl RunCall.apply g).slots[event]? = some s) (i : Nat) :
    s.bits.test i = false := by
  obtain ⟨before, during, rfl, hend⟩ := ho
  rw [List.foldl_append, List.foldl_cons] at hs
  refine bits_during hend (fun s hs => ?_) s hs i
  change s ∈ (onSlot _ event beginEventSlot).slots[event]? at hs
  rw [slots_onSlot keeps_beginEventSlot, if_pos rfl] at hs
  obtain ⟨t, -, rfl⟩ := Option.map_eq_some_iff.1 hs
  exact t.bits.test_clear

end Graph

end Readout
