import Readout.Proofs.Graph.Chains
import Readout.Proofs.Graph.Conserved
import Readout.Proofs.Graph.Events
import Readout.Proofs.Operator.Course

/-!
# Moments of a run

Of the calls of a run an operator takes notice of two, the end of its event and the tick. `moments`
reads off a run what these were for the operator in a place of an event. No other call and no other
node touches what the operator owns or the limits of what it reads, so from the beginning of a run
on it follows the course of its moments (`Begun.course`).
-/
namespace Readout

namespace Workbench

variable {w : Workbench}

/-- The spans that no call of a run writes. -/
def lasting (w : Workbench) : List Span :=
  w.pipes.flatMap Pipe.spans ++
    (w.allSources.flatMap Source.fixed ++ w.allOperators.flatMap Operator.fixed)

/-- The spans that calls of a run write. -/
def changing (w : Workbench) : List Span :=
  w.allSources.flatMap Source.written ++
    w.allOperators.flatMap fun op => op.written ++ op.kind.bins

theorem owned_parts (w : Workbench) : w.owned.Perm (w.lasting ++ w.changing) := by
  have hsources := (List.Perm.flatMap_left w.allSources fun s _ => s.owned_parts).trans
    (List.flatMap_append_perm w.allSources Source.fixed Source.written).symm
  have hops := (List.Perm.flatMap_left w.allOperators fun op _ => op.owned_parts).trans
    (List.flatMap_append_perm w.allOperators Operator.fixed
      fun op => op.written ++ op.kind.bins).symm
  rw [owned, lasting, changing, List.append_assoc, List.append_assoc, List.append_assoc]
  refine List.Perm.append_left _ ((hsources.append hops).trans ?_)
  rw [List.append_assoc]
  exact List.Perm.append_left _ (List.perm_append_comm_assoc _ _ _)

theorem limits_subset_lasting {p : Pipe} (hp : p ∈ w.taps) : p.limits ⊆ w.lasting := by
  intro t ht
  rcases List.mem_append.1 hp with hp | hp
  · rcases List.mem_append.1 hp with hp | hp
    · exact List.mem_append_left _
        (List.mem_flatMap.2 ⟨p, hp, Operator.limits_subset_spans p ht⟩)
    · obtain ⟨s, hs, hp⟩ := List.mem_flatMap.1 hp
      refine List.mem_append_right _ (List.mem_append_left _ (List.mem_flatMap.2 ⟨s, hs, ?_⟩))
      exact List.mem_flatMap.2 ⟨p, hp, ht⟩
  · obtain ⟨op, ho, hp⟩ := List.mem_flatMap.1 hp
    refine List.mem_append_right _ (List.mem_append_right _ (List.mem_flatMap.2 ⟨op, ho, ?_⟩))
    exact List.mem_append_left _ (List.mem_flatMap.2 ⟨p, hp, ht⟩)

/-- No call of a run writes the limits of what operators read. -/
theorem Sound.limits_apart (h : w.Sound) {op : Operator} (ho : op ∈ w.allOperators) {v : Pipe}
    (hv : v ∈ op.inputs) {p : Span} (hp : p ∈ v.limits) : ∀ q ∈ w.changing, p.Apart q := by
  intro q hq i hi
  obtain ⟨t, ht, hvt, -⟩ := (h.operators op ho).inputs v hv
  obtain ⟨u, hu, hsub⟩ := (Pipe.inside_of_mem_views hvt).limits hp
  have hparts := List.pairwise_append.1 (h.placed.apart.perm w.owned_parts fun k => k.symm)
  exact hparts.2.2 u (limits_subset_lasting ht hu) q hq i (hsub i hi)

end Workbench

theorem Kind.exact_of_bins {k : Kind} (h : k.bins = []) : k.Exact := by
  intro n hn
  cases k with
  | planeHistogram => cases h
  | _ => cases hn

theorem Slot.changing_resting (s : Slot) : s.resting.changing = s.changing := by
  rw [changing, changing, nodes_resting, List.flatMap_map]
  simp only [resting, List.flatMap_map, Operator.written_resting, Operator.kind_resting,
    Kind.bins_resting]
  rfl

/-- What belongs to an operator: what it owns, with the limits of what it reads, and its bits. -/
def Operator.domain (op : Operator) : Region :=
  ⟨fun i => ∃ p ∈ op.ground, i ∈ p, op.OwnsBit, fun _ => False⟩

namespace Graph

variable {g : Graph} {s t : Slot} {event place : Nat} {op : Operator}

/-- A graph between two calls, whose operators read limits that no call writes. -/
structure Settled (g : Graph) : Prop extends Quiet g where
  limits : ∀ s ∈ g.slots, ∀ op ∈ s.nodes, ∀ v ∈ op.inputs, ∀ p ∈ v.limits, ∀ t ∈ g.slots,
    ∀ q ∈ t.changing, p.Apart q
  inRange : ∀ s ∈ g.slots, ∀ op ∈ s.nodes, op.kind.bins = [] → op.InRange g.arena.store.slots

theorem exists_slot_of_layout {g' : Graph} (hl : g'.layout = g.layout) (hs : s ∈ g'.slots) :
    ∃ t ∈ g.slots, t.resting = s.resting := by
  have hslots : g'.slots.map Slot.resting = g.slots.map Slot.resting := congrArg Layout.slots hl
  exact List.mem_map.1 (hslots ▸ List.mem_map_of_mem hs)

theorem exists_node_of_resting (hst : t.resting = s.resting) (ho : op ∈ s.nodes) :
    ∃ k ∈ t.nodes, k.resting = op.resting := by
  have hmap : op.resting ∈ s.resting.nodes := by
    rw [Slot.nodes_resting]
    exact List.mem_map_of_mem ho
  rw [← hst, Slot.nodes_resting] at hmap
  exact List.mem_map.1 hmap

theorem Settled.of_layout {g' : Graph} (h : g.Settled) (hl : g'.layout = g.layout)
    (hq : g'.filler.queue = []) : g'.Settled := by
  have hroom : g'.arena.store.slots = g.arena.store.slots := congrArg Layout.room hl
  refine ⟨h.toQuiet.of_layout hl hq, fun s hs op ho v hv p hp t ht q hq => ?_,
    fun s hs op ho hb => ?_⟩
  · obtain ⟨s', hs', hss⟩ := exists_slot_of_layout hl hs
    obtain ⟨t', ht', htt⟩ := exists_slot_of_layout hl ht
    obtain ⟨k, hk, hko⟩ := exists_node_of_resting hss ho
    have hinputs : k.inputs = op.inputs := (congrArg Operator.inputs hko :)
    rw [← Slot.changing_resting, ← htt, Slot.changing_resting] at hq
    exact h.limits s' hs' k hk v (hinputs ▸ hv) p hp t' ht' q hq
  · obtain ⟨s', hs', hss⟩ := exists_slot_of_layout hl hs
    obtain ⟨k, hk, hko⟩ := exists_node_of_resting hss ho
    rw [hroom]
    exact (h.inRange s' hs' k hk ((Operator.bins_of_resting hko).trans hb)).of_resting hko.symm

theorem Settled.onSlot {φ : Graph → Slot → Graph × Slot} (h : g.Settled) (hφ : Confined φ)
    (i : Nat) : (g.onSlot i φ).Settled :=
  h.of_layout (layout_onSlot hφ.keeps g i) (queue_onSlot hφ.queue g i h.queue)

theorem Settled.apply (h : g.Settled) (c : RunCall) : (c.apply g).Settled :=
  h.of_layout (layout_apply g c) (queue_apply c h.queue)

theorem Settled.run (h : g.Settled) (calls : List RunCall) :
    (calls.foldl RunCall.apply g).Settled :=
  h.of_layout (layout_run g calls) (queue_run calls h.queue)

open Workbench in
theorem settled_build (capacity : Nat) (strategy : FillStrategy) (calls : List BuildCall)
    (volume : Volume) : ((after capacity strategy calls).plan.build volume).Settled := by
  have hsound := sound_after capacity strategy calls
  have hroom := slots_after_lt capacity strategy calls
  generalize after capacity strategy calls = w at hsound hroom ⊢
  have hslot : ∀ {s}, s ∈ (w.plan.build volume).slots → ∃ e ∈ w.plan.events, e.slot = s :=
    List.mem_map.1
  have hin : ∀ {s op}, s ∈ (w.plan.build volume).slots → op ∈ s.nodes →
      op ∈ w.allOperators := fun hs ho => by
    obtain ⟨e, he, rfl⟩ := hslot hs
    exact List.mem_append_right _ (List.mem_flatMap.2 ⟨e, he, (nodes_slot_perm e).subset ho⟩)
  refine ⟨⟨hsound.wired volume, fun s hs => ?_, queue_build _ volume, hroom⟩,
    fun s hs op ho v hv p hp t ht q hq => ?_, fun s hs op ho hb => ?_⟩
  · obtain ⟨e, he, rfl⟩ := hslot hs
    exact hsound.guarded he
  · refine hsound.limits_apart (hin hs ho) hv hp q ?_
    rcases List.mem_append.1 hq with hq | hq
    · obtain ⟨n, hn, hqn⟩ := List.mem_flatMap.1 hq
      obtain ⟨e, he, rfl⟩ := hslot ht
      refine List.mem_append_left _ (List.mem_flatMap.2 ⟨n.node, ?_, hqn⟩)
      exact List.mem_append_right _ (List.mem_flatMap.2 ⟨e, he, mem_of_mem_sortBy hn⟩)
    · obtain ⟨k, hk, hqk⟩ := List.mem_flatMap.1 hq
      exact List.mem_append_right _ (List.mem_flatMap.2 ⟨k, hin ht hk, hqk⟩)
  · exact hsound.inRange_operator (hin hs ho) (Kind.exact_of_bins hb)

/-- The limits of what an operator reads hold what they held, whatever calls are made. -/
theorem Settled.limits_run (h : g.Settled) (hs : s ∈ g.slots) (ho : op ∈ s.nodes)
    (calls : List RunCall) :
    g.arena.store.AgreeOn (fun i => ∃ v ∈ op.inputs, ∃ p ∈ v.limits, i ∈ p)
      (calls.foldl RunCall.apply g).arena.store := by
  refine agree_run (R := ⟨fun i => ∃ v ∈ op.inputs, ∃ p ∈ v.limits, i ∈ p, fun _ => False,
    fun _ => False⟩) h.queue (fun k hl t ht => ?_) calls
  obtain ⟨t', ht', htt⟩ := exists_slot_of_layout hl ht
  have hchanging : t'.changing = t.changing := by
    rw [← Slot.changing_resting, htt, Slot.changing_resting]
  have happ : ∀ q ∈ t.changing, ∀ i ∈ q, ¬ ∃ v ∈ op.inputs, ∃ p ∈ v.limits, i ∈ p := by
    rintro q hq i hiq ⟨v, hv, p, hp, hip⟩
    exact h.limits s hs op ho v hv p hp t' ht' q (hchanging ▸ hq) i hip hiq
  constructor
  · exact fun m hm q hq => happ q (List.mem_append_left _ (List.mem_flatMap.2 ⟨m, hm, hq⟩))
  · intro m hm
    refine ⟨fun q hq => happ q (List.mem_append_right _ ?_), fun _ _ => id, fun _ _ => id⟩
    exact List.mem_flatMap.2 ⟨_, List.mem_map_of_mem hm, hq⟩

section Reach

/-- A span that belongs to an operator is one that it owns or one that no call writes. -/
theorem Settled.ground_cases (h : g.Settled) (hs : s ∈ g.slots) (ho : op ∈ s.nodes) {p : Span}
    (hp : p ∈ op.ground) : p ∈ op.owned ∨ ∀ t ∈ g.slots, ∀ q ∈ t.changing, p.Apart q := by
  rcases List.mem_append.1 hp with hp | hp
  · exact Or.inl hp
  · obtain ⟨v, hv, hp⟩ := List.mem_flatMap.1 hp
    exact Or.inr fun t ht q hq => h.limits s hs op ho v hv p hp t ht q hq

theorem Settled.spares (h : g.Settled) (hs : s ∈ g.slots) (ho : op ∈ s.nodes) :
    ∀ m ∈ s.sources, m.node.Spares fun i => ∃ p ∈ op.ground, i ∈ p := by
  rintro m hm q hq i hiq ⟨p, hp, hip⟩
  rcases h.ground_cases hs ho hp with hp | hp
  · have hslot := List.pairwise_append.1 ((List.pairwise_flatMap.1 h.wired.apart).1 s hs)
    exact hslot.2.2 q (List.mem_flatMap.2 ⟨m, hm, m.node.written_subset hq⟩) p
      (List.mem_flatMap.2 ⟨op, ho, hp⟩) i hiq hip
  · exact hp s hs q (List.mem_append_left _ (List.mem_flatMap.2 ⟨m, hm, hq⟩)) i hip hiq

/-- What belongs to an operator is out of reach for the other operators of its slot. -/
theorem Settled.beyond (h : g.Settled) (hs : s ∈ g.slots)
    {before behind : List (Numbered RankedOperator)} {n : Numbered RankedOperator}
    (hsplit : s.operators = before ++ n :: behind) :
    ∀ m ∈ before ++ behind, n.node.operator.domain.Beyond m.node.operator := by
  intro m hm
  have hpart := (h.guarded s hs).part_beyond hsplit m hm
  have hnode : ∀ {k}, k ∈ before ++ n :: behind → k.node.operator ∈ s.nodes := fun hk =>
    List.mem_map_of_mem (hsplit ▸ hk)
  have hn := hnode (List.mem_append_right before (List.mem_cons_self (a := n) (l := behind)))
  have hmo : m.node.operator ∈ s.nodes := hnode (by
    rcases List.mem_append.1 hm with hm | hm
    · exact List.mem_append_left _ hm
    · exact List.mem_append_right _ (List.mem_cons_of_mem n hm))
  refine ⟨?_, hpart.bits, fun _ _ => id⟩
  rintro q hq i hiq ⟨p, hp, hip⟩
  rcases h.ground_cases hs hn hp with hp | hp
  · exact hpart.slots q hq i hiq ⟨p, hp, hip⟩
  · exact hp s hs q (List.mem_append_right _ (List.mem_flatMap.2 ⟨_, hmo, hq⟩)) i hip hiq

/-- What belongs to an operator is out of reach for all nodes of other slots. -/
theorem Settled.outside (h : g.Settled) {i j : Nat} (hs : g.slots[i]? = some s)
    (ho : op ∈ s.nodes) (ht : g.slots[j]? = some t) (hij : i ≠ j) :
    Region.Outside ⟨fun k => ∃ p ∈ op.ground, k ∈ p, fun _ => False, fun _ => False⟩ t := by
  have hpart := h.wired.outside (F := fun _ => False) hs ht hij fun _ _ _ => False.elim
  have hmem := List.mem_of_getElem? ht
  constructor
  · rintro m hm q hq k hkq ⟨p, hp, hkp⟩
    rcases h.ground_cases (List.mem_of_getElem? hs) ho hp with hp | hp
    · exact hpart.sources m hm q hq k hkq ⟨p, Slot.owned_subset ho hp, hkp⟩
    · refine hp t hmem q (List.mem_append_left _ ?_) k hkp hkq
      exact List.mem_flatMap.2 ⟨m, hm, hq⟩
  · intro m hm
    refine ⟨?_, fun _ _ => id, fun _ _ => id⟩
    rintro q hq k hkq ⟨p, hp, hkp⟩
    rcases h.ground_cases (List.mem_of_getElem? hs) ho hp with hp | hp
    · exact (hpart.operators m hm).slots q hq k hkq ⟨p, Slot.owned_subset ho hp, hkp⟩
    · refine hp t hmem q (List.mem_append_right _ ?_) k hkp hkq
      exact List.mem_flatMap.2 ⟨_, List.mem_map_of_mem hm, hq⟩

/-- While an event ends, nobody else touches what belongs to an operator that fills no bins: it
finds there what it left before, and what it leaves stays. -/
theorem Settled.agree_step (h : g.Settled) (hs : s ∈ g.slots)
    {before behind : List (Numbered RankedOperator)} {n : Numbered RankedOperator}
    (hsplit : s.operators = before ++ n :: behind) (hb : n.node.operator.kind.bins = []) :
    (g.frame s).AgreeOn n.node.operator.domain (Slot.passed before (g.frame s)) ∧
      (n.node.operator.step (Slot.passed before (g.frame s))).2.AgreeOn n.node.operator.domain
        ((endEventSlot g s).1.frame (endEventSlot g s).2) := by
  have hbeyond := h.beyond hs hsplit
  refine ⟨Slot.mapOperators_step_frame (fun m hm => hbeyond m (List.mem_append_left _ hm)) _,
    agree_behind hsplit hbeyond (Operator.within_step ?_ fun p hp => ?_)⟩
  · exact Slot.within_mapOperators
      (fun m hm => Slot.mapOperators_bins_outside hbeyond m (List.mem_append_left _ hm))
      (Filler.within_nil h.queue)
  · rw [hb] at hp
    cases hp

end Reach

section Moments

/-- What a call is for the operator in a place of an event. -/
def moment? (g : Graph) (event place : Nat) : RunCall → Option Moment
  | .during (.endEvent e) =>
    if e = event then do
      let s ← g.slots[event]?
      let n ← s.operators[place]?
      let during := Slot.passed (s.operators.take place) (g.frame s)
      return .step (n.node.operator.isOpen during.bits) (n.node.operator.inputValues during)
    else none
  | .during .tick => some .tick
  | _ => none

/-- The moments of the operator in a place of an event. -/
def moments (event place : Nat) : Graph → List RunCall → List Moment
  | _, [] => []
  | g, c :: calls => (g.moment? event place c).toList ++ moments event place (c.apply g) calls

/-- The operator in a place of an event, if it fills no bins, has a property, with the store around
it. -/
def At (event place : Nat) (P : Operator → Store → Prop) (g : Graph) : Prop :=
  ∀ s n, g.slots[event]? = some s → s.operators[place]? = some n →
    n.node.operator.kind.bins = [] → P n.node.operator g.arena.store

/-- A property that changes in what does not belong to the operator cannot take away. -/
def Steady (P : Operator → Store → Prop) : Prop :=
  ∀ op s t, P op s → s.AgreeOn (fun i => ∃ p ∈ op.ground, i ∈ p) t → P op t

/-- The operator has come to the store by the given moments. -/
def Coursed (ms : List Moment) (op : Operator) (s : Store) : Prop :=
  ∃ made : Operator, made.Course ms op s

variable {P Q : Operator → Store → Prop} {φ : Graph → Slot → Graph × Slot} {ms : List Moment}

theorem Coursed.others {st st' : Store} {k : Operator} (h : Coursed ms op st)
    (hr : op.resting = k.resting) (hsame : st.AgreeOn k.domain.slots st') : Coursed ms op st' := by
  obtain ⟨made, hcourse⟩ := h
  have hground := (Operator.ground_of_resting hr).symm.trans
    (Operator.ground_of_resting hcourse.spec.1)
  exact ⟨made, hcourse.others (hsame.mono fun i ⟨p, hp, hi⟩ => ⟨p, hground ▸ hp, hi⟩)⟩

theorem steady_coursed (ms : List Moment) : Steady (Coursed ms) := fun _ _ _ h hsame =>
  h.others rfl hsame

theorem At.visit (hφ : Keeps φ) (hs : g.slots[event]? = some s)
    (h : ∀ n, (φ g s).2.operators[place]? = some n → n.node.operator.kind.bins = [] →
      P n.node.operator (φ g s).1.arena.store) : (g.onSlot event φ).At event place P := by
  intro t n ht hn hb
  rw [slots_onSlot hφ, if_pos rfl, hs] at ht
  obtain rfl := Option.some.inj ht
  rw [onSlot_of_some hs]
  exact h n hn hb

theorem At.of_none (hs : g.slots[event]? = none) : g.At event place P := by
  intro s n hs'
  rw [hs] at hs'
  cases hs'

/-- Visits of other slots are not noticed. -/
theorem At.pass (hP : Steady P) (hφ : Confined φ) (hg : g.Settled) (h : g.At event place P)
    {i : Nat} (hi : i ≠ event) : (g.onSlot i φ).At event place P := by
  intro s n hs hn hb
  rw [slots_onSlot hφ.keeps, if_neg hi] at hs
  have hop : n.node.operator ∈ s.nodes := List.mem_map_of_mem (List.mem_of_getElem? hn)
  exact hP _ _ _ (h s n hs hn hb)
    (store_onSlot hφ hg.queue fun t ht => hg.outside hs hop ht hi.symm)

/-- Nor are visits of its own slot that leave the operators alone. -/
theorem At.still (hP : Steady P) (hφ : Confined φ) (hops : ∀ g s, (φ g s).2.operators = s.operators)
    (hstore : ∀ (g : Graph) s (R : Nat → Prop), (∀ m ∈ s.sources, m.node.Spares R) →
      g.arena.store.AgreeOn R (φ g s).1.arena.store)
    (hg : g.Settled) (h : g.At event place P) (i : Nat) : (g.onSlot i φ).At event place P := by
  by_cases hi : i = event
  · subst hi
    cases hs : g.slots[i]? with
    | none => rwa [onSlot_of_none hs]
    | some s =>
      refine .visit hφ.keeps hs fun n hn hb => ?_
      rw [hops] at hn
      have hop : n.node.operator ∈ s.nodes := List.mem_map_of_mem (List.mem_of_getElem? hn)
      exact hP _ _ _ (h s n hs hn hb) (hstore g s _ (hg.spares (List.mem_of_getElem? hs) hop))
  · exact h.pass hP hφ hg hi

/-- A round through all slots passes the slot of the operator once. -/
theorem At.round (hP : Steady P) (hQ : Steady Q) (hφ : Confined φ)
    (hown : ∀ k : Graph, k.Settled → k.At event place P → (k.onSlot event φ).At event place Q)
    (hg : g.Settled) (h : g.At event place P) : (g.onSlots φ).At event place Q := by
  let R (i : Nat) (k _k : Graph) : Prop := k.Settled ∧ k.layout = g.layout ∧
    (i ≤ event → k.At event place P) ∧ (event < i → k.At event place Q)
  have hround : R g.slots.length (g.onSlots φ) (g.onSlots φ) := by
    refine onSlots_related (Q := R) (fun i k _ ⟨hk, hl, hbefore, hafter⟩ => ?_) rfl
      ⟨hg, rfl, fun _ => h, fun hlt => absurd hlt (Nat.not_lt_zero _)⟩
    refine ⟨hk.onSlot hφ i, (layout_onSlot hφ.keeps k i).trans hl, fun hle => ?_, fun hlt => ?_⟩
    · exact (hbefore (by omega)).pass hP hφ hk (by omega)
    · by_cases hi : i = event
      · subst hi
        exact hown k hk (hbefore (Nat.le_refl i))
      · exact (hafter (by omega)).pass hQ hφ hk hi
  obtain ⟨-, hl, -, hafter⟩ := hround
  by_cases hlt : event < g.slots.length
  · exact hafter hlt
  · exact .of_none (slot_eq_none_of_layout hl.symm (List.getElem?_eq_none (by omega)))

theorem At.beginRunSlot (hg : g.Settled) :
    (g.onSlot event beginRunSlot).At event place (Coursed []) := by
  cases hs : g.slots[event]? with
  | none => exact .of_none ((congrArg (·.slots[event]?) (onSlot_of_none hs)).trans hs)
  | some s =>
    refine .visit keeps_beginRunSlot hs fun n' hn' hb => ?_
    have hmem := List.mem_of_getElem? hs
    simp only [Graph.beginRunSlot, Slot.getElem?_mapOperators] at hn'
    obtain ⟨n, hn, rfl⟩ := Option.map_eq_some_iff.1 hn'
    have hsplit := Slot.split_operators hn
    have hop : n.node.operator ∈ s.nodes := List.mem_map_of_mem (List.mem_of_getElem? hn)
    let f := (g.withStore (Slot.mapSources (fun n st => (n, n.beginRun st)) s.sources
      g.arena.store).2).frame s
    let during := (Slot.mapOperators Operator.beginRun (s.operators.take place) f).2
    have hsources := (Slot.mapSources_keeps (fun n st => (n, n.beginRun st))
      (fun n st => ⟨rfl, st.slots_fill n.hitCounts _⟩) s.sources g.arena.store).2
    have hroom : during.store.slots = g.arena.store.slots :=
      (Slot.mapOperators_phase Operator.phase_beginRun _ f).2.2.trans hsources
    have hrest := Operator.phase_beginRun.resting n.node.operator during
    have hbins := (Operator.bins_of_resting hrest).symm.trans hb
    have hbegun := Operator.Course.begun during (hroom ▸ hg.inRange s hmem _ hop hbins)
    have hbeyond := hg.beyond hmem hsplit
    have hback := Slot.mapOperators_store (φ := Operator.beginRun)
      (P := fun i => ∃ p ∈ n.node.operator.ground, i ∈ p)
      (fun m (hm : m ∈ s.operators.drop (place + 1)) f => Operator.beginRun_frame (fun p hp =>
        (hbeyond m (List.mem_append_right _ hm)).slots p (m.node.operator.cleared_subset hp)) f)
      (n.node.operator.beginRun during).2
    have hend : (Slot.mapOperators Operator.beginRun s.operators f).2 =
        (Slot.mapOperators Operator.beginRun (s.operators.drop (place + 1))
          (n.node.operator.beginRun during).2).2 := by
      conv_lhs => rw [hsplit, Slot.mapOperators_append]
      rfl
    refine ⟨n.node.operator, ?_⟩
    rw [show (Graph.beginRunSlot g s).1.arena.store =
      (Slot.mapOperators Operator.beginRun s.operators f).2.store from rfl, hend]
    exact hbegun.others hback

theorem At.endEvent (hg : g.Settled) (h : g.At event place (Coursed ms)) :
    (g.endEvent event).At event place
      (Coursed (ms ++ (g.moment? event place (.during (.endEvent event))).toList)) := by
  cases hs : g.slots[event]? with
  | none => exact .of_none ((congrArg (·.slots[event]?) (onSlot_of_none hs)).trans hs)
  | some s =>
    refine .visit keeps_endEventSlot hs fun n' hn' hb => ?_
    have hmem := List.mem_of_getElem? hs
    simp only [endEventSlot, Slot.getElem?_mapOperators] at hn'
    obtain ⟨n, hn, rfl⟩ := Option.map_eq_some_iff.1 hn'
    have hrest := n.node.operator.resting_step
      (Slot.passed (s.operators.take place) (g.frame s))
    have hbins := (Operator.bins_of_resting hrest).symm.trans hb
    obtain ⟨hfront, hback⟩ := hg.agree_step hmem (Slot.split_operators hn) hbins
    have hmoment : g.moment? event place (.during (.endEvent event)) = some
        (.step (n.node.operator.isOpen (Slot.passed (s.operators.take place) (g.frame s)).bits)
          (n.node.operator.inputValues (Slot.passed (s.operators.take place) (g.frame s)))) := by
      simp [moment?, hs, hn]
    obtain ⟨made, hcourse⟩ := steady_coursed ms _ _ _ (h s n hs hn hbins) hfront.store
    have hstep := hcourse.step (Slot.passed (s.operators.take place) (g.frame s))
    rw [hmoment]
    exact Coursed.others ⟨made, hstep⟩ hrest hback.store

theorem At.tickSlot (h : g.At event place (Coursed ms)) :
    (g.onSlot event tickSlot).At event place (Coursed (ms ++ [.tick])) := by
  cases hs : g.slots[event]? with
  | none => exact .of_none ((congrArg (·.slots[event]?) (onSlot_of_none hs)).trans hs)
  | some s =>
    refine .visit keeps_tickSlot hs fun n' hn' hb => ?_
    have hstill : ∀ (ns : List (Numbered RankedOperator)) (f : Frame),
        (Slot.mapOperators (fun op f => (op.tick f.store, f)) ns f).2 = f := by
      intro ns
      induction ns with
      | nil => exact fun _ => rfl
      | cons m ns ih => exact ih
    rw [Graph.tickSlot, Slot.getElem?_mapOperators, hstill] at hn'
    obtain ⟨n, hn, rfl⟩ := Option.map_eq_some_iff.1 hn'
    have hrest := n.node.operator.resting_tick g.arena.store
    obtain ⟨made, hcourse⟩ := h s n hs hn ((Operator.bins_of_resting hrest).symm.trans hb)
    exact ⟨made, hcourse.tick⟩

theorem At.endRunSlot (h : g.At event place (Coursed ms)) :
    (g.onSlot event endRunSlot).At event place (Coursed ms) := by
  cases hs : g.slots[event]? with
  | none => exact .of_none ((congrArg (·.slots[event]?) (onSlot_of_none hs)).trans hs)
  | some s =>
    refine .visit keeps_endRunSlot hs fun n' hn' hb => ?_
    have hstill : (g.frame s).store.Same
        (Slot.mapOperators Operator.endRun s.operators (g.frame s)).2.store :=
      Slot.mapOperators_store (fun m _ f => by rw [Operator.endRun_store]; exact .refl _ _) _
    rw [Graph.endRunSlot, Slot.getElem?_mapOperators] at hn'
    obtain ⟨n, hn, rfl⟩ := Option.map_eq_some_iff.1 hn'
    let during := (Slot.mapOperators Operator.endRun (s.operators.take place) (g.frame s)).2
    have hrest := Operator.phase_endRun.resting n.node.operator during
    obtain ⟨made, hcourse⟩ := steady_coursed ms _ _ _
      (h s n hs hn ((Operator.bins_of_resting hrest).symm.trans hb))
      (hstill.mono fun _ _ => trivial)
    exact ⟨made, hcourse.endRun during⟩

theorem At.apply (hg : g.Settled) (h : g.At event place (Coursed ms)) {c : RunCall}
    (hc : c ≠ .beginRun) :
    (c.apply g).At event place (Coursed (ms ++ (g.moment? event place c).toList)) := by
  have hsteady := steady_coursed ms
  cases c with
  | beginRun => exact absurd rfl hc
  | endRun =>
    rw [show g.moment? event place .endRun = none from rfl, Option.toList_none, List.append_nil]
    exact At.round hsteady hsteady confined_endRunSlot (fun k _ hk => hk.endRunSlot) hg h
  | during c =>
    cases c with
    | beginEvent e =>
      rw [show g.moment? event place (.during (.beginEvent e)) = none from rfl, Option.toList_none,
        List.append_nil]
      exact h.still hsteady confined_beginEventSlot (fun _ _ => rfl) (fun g s R hR =>
        Slot.mapSources_frame (fun _ st hm => Source.beginEvent_frame hm st) hR g.arena.store) hg e
    | feed e moduleIndex words =>
      rw [show g.moment? event place (.during (.feed e moduleIndex words)) = none from rfl,
        Option.toList_none, List.append_nil]
      exact h.still hsteady (confined_feedSlot moduleIndex words) (fun _ _ => rfl)
        (fun g s R hR => Slot.feedSources_frame moduleIndex words hR g.arena.store) hg e
    | tick =>
      exact At.round hsteady (steady_coursed _) confined_tickSlot (fun k _ hk => hk.tickSlot) hg h
    | endEvent e =>
      by_cases he : e = event
      · subst he
        exact h.endEvent hg
      · rw [show g.moment? event place (.during (.endEvent e)) = none from if_neg he,
          Option.toList_none, List.append_nil]
        exact h.pass hsteady confined_endEventSlot hg he

theorem At.run (hg : g.Settled) (h : g.At event place (Coursed ms)) {calls : List RunCall}
    (hcalls : .beginRun ∉ calls) : (calls.foldl RunCall.apply g).At event place
      (Coursed (ms ++ moments event place g calls)) := by
  induction calls generalizing g ms with
  | nil => rwa [moments, List.append_nil]
  | cons c calls ih =>
    rw [List.mem_cons, not_or] at hcalls
    have hrest := ih (hg.apply c) (h.apply hg (Ne.symm hcalls.1)) hcalls.2
    rwa [List.append_assoc] at hrest

/-- The operator in a place of an event. -/
def occupant? (g : Graph) (event place : Nat) : Option Operator :=
  g.slots[event]?.bind fun s => s.operators[place]?.map fun n => n.node.operator

/-- A graph that has been built, after any calls. -/
def Reached (g : Graph) : Prop :=
  ∃ (capacity : Nat) (strategy : FillStrategy) (calls : List BuildCall) (volume : Volume)
    (before : List RunCall), g = before.foldl RunCall.apply
      ((Workbench.after capacity strategy calls).plan.build volume)

theorem Reached.settled (hg : g.Reached) : g.Settled := by
  obtain ⟨capacity, strategy, calls, volume, before, rfl⟩ := hg
  exact (settled_build capacity strategy calls volume).run before

/-- A graph has just begun a run, its first one or a later one. -/
def Begun (g : Graph) : Prop := ∃ k : Graph, k.Reached ∧ g = k.beginRun

theorem Begun.settled (hg : g.Begun) : g.Settled := by
  obtain ⟨k, hk, rfl⟩ := hg
  exact hk.settled.apply .beginRun

theorem occupant_mem (h : g.occupant? event place = some op) : ∃ s ∈ g.slots, op ∈ s.nodes := by
  obtain ⟨s, hs, hslot⟩ := Option.bind_eq_some_iff.1 h
  obtain ⟨n, hn, rfl⟩ := Option.map_eq_some_iff.1 hslot
  exact ⟨s, List.mem_of_getElem? hs, List.mem_map_of_mem (List.mem_of_getElem? hn)⟩

/-- Limits that an operator reads are those with which the run has begun. -/
theorem Begun.get_limits (hg : g.Begun) {since : List RunCall}
    (hop : (since.foldl RunCall.apply g).occupant? event place = some op) {v : Pipe}
    (hv : v ∈ op.inputs) {p : Span} (hp : p ∈ v.limits) {i : Nat} (hi : i < p.length) :
    (since.foldl RunCall.apply g).arena.store.get p i = g.arena.store.get p i := by
  obtain ⟨s, hs, ho⟩ := occupant_mem hop
  obtain ⟨t, ht, hts⟩ := exists_slot_of_layout (layout_run g since) hs
  obtain ⟨k, hk, hko⟩ := exists_node_of_resting hts ho
  have hinputs : k.inputs = op.inputs := (congrArg Operator.inputs hko :)
  exact ((hg.settled.limits_run ht hk since).get_eq ⟨v, hinputs ▸ hv, p, hp,
    Nat.le_add_right _ _, Nat.add_lt_add_left hi _⟩).symm

/-- So they are what its steps find. -/
theorem Begun.get_limits_step (hg : g.Begun) {since : List RunCall} {op : Operator}
    (hop : (since.foldl RunCall.apply g).occupant? event place = some op) {f : Frame}
    (hr : op.InRange f.store.slots)
    (hend : (op.step f).2.store.AgreeOn (fun i => ∃ p ∈ op.ground, i ∈ p)
      (since.foldl RunCall.apply g).arena.store) {v : Pipe} (hv : v ∈ op.inputs) {p : Span}
    (hp : p ∈ v.limits) {i : Nat} (hi : i < p.length) :
    f.store.get p i = g.arena.store.get p i := by
  rw [← hg.get_limits hop hv hp hi, ← hend.get_eq ⟨p, Operator.limits_mem_ground hv hp,
    Nat.le_add_right _ _, Nat.add_lt_add_left hi _⟩]
  exact (hr.get_input_step hv (Operator.limits_subset_spans v hp) hi).symm

/-- From the beginning of a run on, an operator that fills no bins follows the course of its
moments. -/
theorem Begun.course (hg : g.Begun) {since : List RunCall} (hsince : .beginRun ∉ since)
    {op : Operator} (hop : (since.foldl RunCall.apply g).occupant? event place = some op)
    (hbins : op.kind.bins = []) : ∃ made : Operator,
      made.Course (moments event place g since) op (since.foldl RunCall.apply g).arena.store := by
  obtain ⟨k, hk, rfl⟩ := hg
  have hbegun : k.beginRun.At event place (Coursed []) :=
    At.round (P := fun _ _ => True) (fun _ _ _ _ _ => trivial) (steady_coursed [])
      confined_beginRunSlot (fun _ h _ => At.beginRunSlot h) hk.settled fun _ _ _ _ _ => trivial
  obtain ⟨s, hs, hslot⟩ := Option.bind_eq_some_iff.1 hop
  obtain ⟨n, hn, rfl⟩ := Option.map_eq_some_iff.1 hslot
  exact hbegun.run (hk.settled.apply .beginRun) hsince s n hs hn hbins

theorem Begun.course_of_fixed (hg : g.Begun) {since : List RunCall} (hsince : .beginRun ∉ since)
    {op : Operator} (hop : (since.foldl RunCall.apply g).occupant? event place = some op)
    (hbins : op.kind.bins = []) (hk : op.kind.Fixed) :
    op.Course (moments event place g since) op (since.foldl RunCall.apply g).arena.store := by
  obtain ⟨made, hcourse⟩ := hg.course hsince hop hbins
  obtain rfl := Operator.eq_of_resting hcourse.spec.1.symm hk
  exact hcourse

end Moments

end Graph
end Readout
