import Readout.Proofs.Graph.Aftermath
import Readout.Proofs.Graph.Isolation

/-!
# Runs start over

The beginning of a run makes graphs the same that had nothing in common but their layout and their
constants, one slot after the other: counters of hits, bins, memory and condition bits are cleared,
traces in the operators are gone, and the files of the sinks are created anew.
-/
namespace Readout

namespace Slot

/-- The spans that a run clears when it begins. -/
def cleared (s : Slot) : List Span :=
  s.sources.map (fun n => n.node.hitCounts) ++
    s.nodes.flatMap fun op => op.kind.state ++ op.kind.bins

theorem cleared_resting (s : Slot) : s.resting.cleared = s.cleared := by
  have hop : ∀ op : Operator, op.resting.kind.state ++ op.resting.kind.bins =
      op.kind.state ++ op.kind.bins := by
    intro op
    rw [← Kind.spans_cleared, ← Kind.spans_cleared, Operator.kind_resting, Kind.cleared_resting]
  rw [cleared, cleared, nodes_resting, List.flatMap_map]
  simp only [resting, List.map_map, hop]
  rfl

theorem cleared_subset_owned (s : Slot) : s.cleared ⊆ s.owned := by
  intro p hp
  rcases List.mem_append.1 hp with hp | hp
  · obtain ⟨n, hn, rfl⟩ := List.mem_map.1 hp
    exact source_owned_subset hn (List.mem_append_right _ List.mem_cons_self)
  · obtain ⟨op, ho, hp⟩ := List.mem_flatMap.1 hp
    exact owned_subset ho (op.changing_subset_owned (op.cleared_subset hp))

theorem mapSources_clears {P : Nat → Prop} {ns ns' : List (Numbered Source)}
    (hr : ns.map (Numbered.map Source.resting) = ns'.map (Numbered.map Source.resting))
    {st st' : Store} (hfit : ∀ n ∈ ns, n.node.hitCounts.stop ≤ st.slots) (h : st.AgreeOn P st') :
    (mapSources (fun n st => (n, n.beginRun st)) ns st).2.AgreeOn
      (fun i => P i ∨ ∃ n ∈ ns, i ∈ n.node.hitCounts)
      (mapSources (fun n st => (n, n.beginRun st)) ns' st').2 := by
  induction ns generalizing ns' st st' P with
  | nil =>
    obtain rfl := List.map_eq_nil_iff.1 hr.symm
    exact h.mono fun i hi => hi.resolve_right (by simp)
  | cons n ns ih =>
    obtain ⟨n', ns', rfl⟩ : ∃ n' rest, ns' = n' :: rest :=
      List.exists_cons_of_ne_nil (by rintro rfl; cases hr)
    obtain ⟨hn, hr⟩ := List.cons.inj hr
    obtain ⟨hfitn, hfit⟩ := List.forall_mem_cons.1 hfit
    have hcounts := congrArg Source.hitCounts (Numbered.inj_of_map hn).2
    have hnext : (n.node.beginRun st).AgreeOn (fun i => P i ∨ i ∈ n.node.hitCounts)
        (n'.node.beginRun st') := by
      rw [Source.beginRun, Source.beginRun,
        show n'.node.hitCounts = n.node.hitCounts from hcounts.symm]
      exact h.fill_covers _ hfitn
    refine (ih hr (fun m hm => ?_) hnext).mono fun i hi => ?_
    · rw [Source.beginRun, Store.slots_fill]
      exact hfit m hm
    · simpa [or_assoc] using hi

variable {v : Volume} {F A : List String → Prop} {P : Nat → Prop} {s s' : Slot}

theorem mapOperators_restarted (f f' : Frame) (hr : s.resting = s'.resting)
    (hx : ∀ op ∈ s.nodes, op.kind.isExpression = false) (hc : s.Closed) (hc' : s'.Closed)
    (hh : s.Housed v F)
    (hfit : ∀ op ∈ s.nodes, ∀ p ∈ op.kind.state ++ op.kind.bins, p.stop ≤ f.store.slots)
    (h : Restarted v F A P f.store f'.store f.volume f'.volume) :
    (mapOperators Operator.beginRun s.operators f).1 =
        (mapOperators Operator.beginRun s'.operators f').1 ∧
      Restarted v F (fun p => A p ∨ ∃ op ∈ s.nodes, op.Creates v p)
        (fun i => P i ∨ ∃ op ∈ s.nodes, ∃ p ∈ op.kind.state ++ op.kind.bins, i ∈ p)
        (mapOperators Operator.beginRun s.operators f).2.store
        (mapOperators Operator.beginRun s'.operators f').2.store
        (mapOperators Operator.beginRun s.operators f).2.volume
        (mapOperators Operator.beginRun s'.operators f').2.volume := by
  have hpairs : List.Forall₂ (fun n n' : Numbered RankedOperator =>
      n'.node.operator.kind.opened = false ∧ n.map RankedOperator.resting =
        n'.map RankedOperator.resting) s.operators s'.operators :=
    ((List.forall₂_and_left _ _).2 ⟨fun n hn => hc' _ (List.mem_map_of_mem hn),
      (forall₂_of_resting (congrArg Slot.operators hr)).flip⟩).flip
  -- what is cleared and created grows with the operators that have begun the run
  let Q (before : List (Numbered RankedOperator)) (k k' : Frame) : Prop :=
    k.store.slots = f.store.slots ∧
      Restarted v F (fun p => A p ∨ ∃ n ∈ before, n.node.operator.Creates v p)
        (fun i => P i ∨
          ∃ n ∈ before, ∃ p ∈ n.node.operator.kind.state ++ n.node.operator.kind.bins, i ∈ p)
        k.store k'.store k.volume k'.volume
  have hstart : Q [] f f' :=
    ⟨rfl, h.mono (fun i hi => hi.resolve_right (by simp)) fun p hp => hp.resolve_right (by simp)⟩
  have hstep : ∀ (before : List (Numbered RankedOperator)) (n : Numbered RankedOperator)
      (behind : List (Numbered RankedOperator)) (n' : Numbered RankedOperator) (k k' : Frame),
      s.operators = before ++ n :: behind → n'.node.operator.kind.opened = false ∧
        n.map RankedOperator.resting = n'.map RankedOperator.resting → Q before k k' →
      Numbered.mk n.index { n.node with operator := (n.node.operator.beginRun k).1 } =
          Numbered.mk n'.index { n'.node with operator := (n'.node.operator.beginRun k').1 } ∧
        Q (before ++ [n]) (n.node.operator.beginRun k).2 (n'.node.operator.beginRun k').2 := by
    rintro before ⟨i, ⟨op, rank⟩⟩ behind ⟨i', ⟨op', rank'⟩⟩ k k' hsplit ⟨hopen', hn⟩ ⟨hslots, hQ⟩
    simp only [Numbered.map, RankedOperator.resting, Numbered.mk.injEq,
      RankedOperator.mk.injEq] at hn
    obtain ⟨rfl, hop, rfl⟩ := hn
    have hmem : op ∈ s.nodes := by
      rw [nodes, hsplit]
      exact List.mem_map.2 ⟨_, List.mem_append_right _ List.mem_cons_self, rfl⟩
    obtain ⟨hsame, hnext⟩ := Operator.beginRun_restarted hop (hx _ hmem) (hc _ hmem) hopen'
      (hh _ hmem) (hslots ▸ hfit op hmem) hQ
    refine ⟨by rw [hsame], (Operator.phase_beginRun.slots op k).trans hslots,
      hnext.mono (fun i hi => ?_) fun p hp => ?_⟩
    · simpa [or_and_right, exists_or, or_assoc] using hi
    · simpa [or_and_right, exists_or, or_assoc] using hp
  obtain ⟨hops, -, hend⟩ := mapOperators_paired s.operators (· = ·) Q hstep rfl hpairs hstart
  refine ⟨List.forall₂_eq_eq_eq ▸ hops, hend.mono (fun i hi => ?_) fun p hp => ?_⟩
  · simpa [nodes] using hi
  · simpa [nodes] using hp

end Slot

namespace Graph

variable {v : Volume} {F A : List String → Prop} {P : Nat → Prop} {g g' : Graph} {s s' : Slot}

/-- What the beginning of a run makes of two slots. -/
structure BegunAlike (v : Volume) (F A : List String → Prop) (P : Nat → Prop) (s : Slot)
    (x x' : Graph × Slot) : Prop where
  operators : x.2.operators = x'.2.operators
  bits : x.2.bits = x'.2.bits
  restarted : Restarted v F (fun p => A p ∨ ∃ op ∈ s.nodes, op.Creates v p)
    (fun i => P i ∨ ∃ p ∈ s.cleared, i ∈ p) x.1.arena.store x'.1.arena.store x.1.volume x'.1.volume

theorem beginRunSlot_alike (hfit : ∀ p ∈ s.cleared, p.stop ≤ g.arena.store.slots)
    (hr : s.resting = s'.resting) (hx : ∀ op ∈ s.nodes, op.kind.isExpression = false)
    (hc : s.Closed) (hc' : s'.Closed) (hh : s.Housed v F)
    (h : Restarted v F A P g.arena.store g'.arena.store g.volume g'.volume) :
    BegunAlike v F A P s (beginRunSlot g s) (beginRunSlot g' s') := by
  have hsources := Slot.mapSources_clears (congrArg Slot.sources hr) (fun n hn =>
    hfit _ (List.mem_append_left _ (List.mem_map_of_mem hn))) h.store
  have hroom := (Slot.mapSources_keeps (fun n st => (n, n.beginRun st))
    (fun n st => ⟨rfl, st.slots_fill n.hitCounts _⟩) s.sources g.arena.store).2
  obtain ⟨hops, hend⟩ := Slot.mapOperators_restarted ((g.withStore _).frame s)
    ((g'.withStore _).frame s') hr hx hc hc' hh (fun op ho p hp => by
      rw [show ((g.withStore _).frame s).store.slots = g.arena.store.slots from hroom]
      exact hfit p (List.mem_append_right _ (List.mem_flatMap.2 ⟨op, ho, hp⟩)))
    ⟨hsources, h.volume, h.volume', h.files⟩
  have hbits : s.bits.clear = s'.bits.clear := congrArg Slot.bits hr
  refine ⟨hops, hbits, hend.mono (fun i hi => ?_) fun _ => id⟩
  rcases hi with hi | ⟨p, hp, hi⟩
  · exact Or.inl (Or.inl hi)
  · rcases List.mem_append.1 hp with hp | hp
    · obtain ⟨n, hn, rfl⟩ := List.mem_map.1 hp
      exact Or.inl (Or.inr ⟨n, hn, hi⟩)
    · obtain ⟨op, ho, hp⟩ := List.mem_flatMap.1 hp
      exact Or.inr ⟨op, ho, p, hp, hi⟩

variable {l : Layout} {n : Nat}

/-- A round through two graphs of one layout that begins a run, when it has come to a slot. -/
structure Renewing (l : Layout) (v : Volume) (F : List String → Prop) (n : Nat) (g g' : Graph) :
    Prop where
  left : g.Idling
  right : g'.Idling
  layout : g.layout = l
  layout' : g'.layout = l
  closed : ∀ j, n ≤ j → ∀ s ∈ g.slots[j]?, s.Closed
  closed' : ∀ j, n ≤ j → ∀ s ∈ g'.slots[j]?, s.Closed
  operators : ∀ j < n, g.slots[j]?.map Slot.operators = g'.slots[j]?.map Slot.operators
  bits : ∀ j < n, g.slots[j]?.map Slot.bits = g'.slots[j]?.map Slot.bits
  restarted : Restarted v F (fun p => ∃ s ∈ l.slots.take n, ∃ op ∈ s.nodes, op.Creates v p)
    (fun i => (∃ s ∈ l.slots, ∃ p ∈ s.fixed, i ∈ p) ∨
      ∃ s ∈ l.slots.take n, ∃ p ∈ s.cleared, i ∈ p)
    g.arena.store g'.arena.store g.volume g'.volume

theorem Renewing.recount (h : Renewing l v F n g g') (b : Bool) (m t : Nat) :
    Renewing l v F n { g with running := b, events := m, ticks := t }
      { g' with running := b, events := m, ticks := t } :=
  ⟨h.left.recount _ _ _, h.right.recount _ _ _, h.layout, h.layout', h.closed, h.closed',
    h.operators, h.bits, h.restarted⟩

theorem Renewing.onSlot (h : Renewing l v F n g g') (hn : n < l.slots.length)
    (hx : ∀ s ∈ l.slots, ∀ op ∈ s.nodes, op.kind.isExpression = false)
    (hh : ∀ s ∈ l.slots, s.Housed v F) :
    Renewing l v F (n + 1) (g.onSlot n beginRunSlot) (g'.onSlot n beginRunSlot) := by
  obtain ⟨s, hs, hrest⟩ := Option.map_eq_some_iff.1
    ((getElem?_layout h.layout n).symm.trans (List.getElem?_eq_getElem hn))
  obtain ⟨s', hs', hrest'⟩ := Option.map_eq_some_iff.1
    ((getElem?_layout h.layout' n).symm.trans (List.getElem?_eq_getElem hn))
  have hmem : s.resting ∈ l.slots := hrest ▸ List.getElem_mem hn
  have htake : l.slots.take (n + 1) = l.slots.take n ++ [s.resting] := by
    rw [List.take_add_one, List.getElem?_eq_getElem hn, hrest, Option.toList_some]
  have hfit : ∀ p ∈ s.cleared, p.stop ≤ g.arena.store.slots := fun p hp =>
    h.left.contained.wired.fits s (List.mem_of_getElem? hs) p (s.cleared_subset_owned hp)
  have hexpr : ∀ op ∈ s.nodes, op.kind.isExpression = false := by
    have hall := hx _ hmem
    rw [Slot.nodes_resting, List.forall_mem_map] at hall
    intro op ho
    rw [← Kind.isExpression_resting]
    exact hall op ho
  obtain ⟨hops, hbits, hre⟩ := beginRunSlot_alike hfit (hrest.trans hrest'.symm) hexpr
    (h.closed n (Nat.le_refl n) s hs) (h.closed' n (Nat.le_refl n) s' hs')
    (Slot.housed_resting s ▸ hh _ hmem) h.restarted
  have hslots := slots_onSlot keeps_beginRunSlot g n
  have hslots' := slots_onSlot keeps_beginRunSlot g' n
  refine ⟨h.left.onSlot confined_beginRunSlot n, h.right.onSlot confined_beginRunSlot n,
    (layout_onSlot keeps_beginRunSlot g n).trans h.layout,
    (layout_onSlot keeps_beginRunSlot g' n).trans h.layout', fun j hj => ?_, fun j hj => ?_,
    fun j hj => ?_, fun j hj => ?_, ?_⟩
  · rw [hslots, if_neg (by omega)]
    exact h.closed j (by omega)
  · rw [hslots', if_neg (by omega)]
    exact h.closed' j (by omega)
  · rw [hslots, hslots']
    split
    · next hj =>
      rw [← hj, hs, hs']
      exact congrArg some hops
    · exact h.operators j (by omega)
  · rw [hslots, hslots']
    split
    · next hj =>
      rw [← hj, hs, hs']
      exact congrArg some hbits
    · exact h.bits j (by omega)
  · rw [onSlot_of_some hs, onSlot_of_some hs', htake]
    refine hre.mono (fun i hi => ?_) fun p hp => ?_
    · simpa [or_and_right, exists_or, or_assoc, Slot.cleared_resting] using hi
    · simpa [or_and_right, exists_or, Slot.nodes_resting, Operator.creates_resting] using hp

end Graph

end Readout
