import Readout.Proofs.Config.Built
import Readout.Proofs.Graph.Reach

/-!
# Slots on their own

The names of a configuration belong to events. So the operators of a built event read what nodes of
their own event write, each of them behind the nodes that it reads, and no two events share a slot
of the store. This is a matter of layout and holds in every state of the graph.
-/
namespace Readout

namespace Slot

/-- The outputs of all nodes of a slot. -/
def pipes (s : Slot) : List Pipe :=
  s.sources.flatMap (fun n => n.node.outputs) ++ s.nodes.flatMap Operator.outputs

/-- What the nodes of a slot own, with all condition bits and a set of files. -/
def part (s : Slot) (F : List String → Prop) : Region where
  slots i := ∃ p ∈ s.owned, i ∈ p
  bits _ := True
  files := F

/-- The operators of a slot stand in order and read what nodes of the slot write, and its sources
find room for all hits. -/
structure Contained (room : Nat) (s : Slot) : Prop where
  order : InOrder s.nodes
  fed : ∀ op ∈ s.nodes, ∀ v ∈ op.inputs, ∃ p ∈ s.pipes, v ∈ p.views
  sources : ∀ n ∈ s.sources, n.node.InRange room
  even : ∀ n ∈ s.sources, ∀ p ∈ n.node.outputs, p.Even

theorem pipes_resting (s : Slot) : s.resting.pipes = s.pipes := by
  rw [pipes, pipes, nodes_resting, List.flatMap_map]
  simp only [resting, List.flatMap_map]
  rfl

theorem part_of_resting {s t : Slot} (hr : t.resting = s.resting) (F : List String → Prop) :
    t.part F = s.part F := by
  rw [part, part, ← owned_resting, hr, owned_resting]

theorem Contained.map_resting {room : Nat} {s : Slot} :
    s.resting.Contained room ↔ s.Contained room := by
  have hsources : ∀ n : Numbered Source,
      (n.map Source.resting).node.InRange room ↔ n.node.InRange room := fun n =>
    Source.InRange.map_resting
  constructor
  · rintro ⟨ho, hf, hs, he⟩
    rw [nodes_resting] at ho hf
    rw [pipes_resting] at hf
    simp only [resting, List.forall_mem_map, hsources, InOrder.map_resting] at ho hf hs he
    exact ⟨ho, hf, hs, he⟩
  · rintro ⟨ho, hf, hs, he⟩
    constructor
    · rw [nodes_resting]
      exact InOrder.map_resting.2 ho
    · rw [nodes_resting, pipes_resting]
      exact List.forall_mem_map.2 hf
    · exact List.forall_mem_map.2 fun n hn => (hsources n).2 (hs n hn)
    · exact List.forall_mem_map.2 he

theorem Contained.of_resting {room : Nat} {s t : Slot} (h : s.Contained room)
    (hr : t.resting = s.resting) : t.Contained room := by
  rw [← map_resting, hr, map_resting]
  exact h

theorem spans_subset_owned {s : Slot} {p : Pipe} (hp : p ∈ s.pipes) : p.spans ⊆ s.owned := by
  intro t ht
  rcases List.mem_append.1 hp with hp | hp
  · obtain ⟨n, hn, hp⟩ := List.mem_flatMap.1 hp
    refine List.mem_append_left _ (List.mem_flatMap.2 ⟨n, hn, ?_⟩)
    exact List.mem_append_left _ (List.mem_flatMap.2 ⟨p, hp, ht⟩)
  · obtain ⟨op, ho, hp⟩ := List.mem_flatMap.1 hp
    refine List.mem_append_right _ (List.mem_flatMap.2 ⟨op, ho, ?_⟩)
    exact List.mem_append_left _ (List.mem_append_left _ (List.mem_flatMap.2 ⟨p, hp, ht⟩))

theorem owned_subset {s : Slot} {op : Operator} (ho : op ∈ s.nodes) : op.owned ⊆ s.owned :=
  fun _ hp => List.mem_append_right _ (List.mem_flatMap.2 ⟨op, ho, hp⟩)

theorem source_owned_subset {s : Slot} {n : Numbered Source} (hn : n ∈ s.sources) :
    n.node.owned ⊆ s.owned :=
  fun _ hp => List.mem_append_left _ (List.mem_flatMap.2 ⟨n, hn, hp⟩)

theorem source_pipe {s : Slot} {n : Numbered Source} (hn : n ∈ s.sources) {p : Pipe}
    (hp : p ∈ n.node.outputs) : p ∈ s.pipes :=
  List.mem_append_left _ (List.mem_flatMap.2 ⟨n, hn, hp⟩)

theorem operator_pipe {s : Slot} {op : Operator} (ho : op ∈ s.nodes) {p : Pipe}
    (hp : p ∈ op.outputs) : p ∈ s.pipes :=
  List.mem_append_right _ (List.mem_flatMap.2 ⟨op, ho, hp⟩)

/-- What an operator looks at belongs to its slot. -/
theorem Contained.reads_part {room : Nat} {s : Slot} (h : s.Contained room) {op : Operator}
    (ho : op ∈ s.nodes) (F : List String → Prop) {i : Nat} (hi : op.reads.slots i) :
    (s.part F).slots i := by
  obtain ⟨q, hq, hiq⟩ := hi
  rcases List.mem_append.1 hq with hq | hq
  · obtain ⟨v, hv, hq⟩ := List.mem_flatMap.1 hq
    obtain ⟨p, hp, hpv⟩ := h.fed op ho v hv
    have hinside := Pipe.inside_of_mem_views hpv
    have howned := spans_subset_owned hp
    simp only [Pipe.spans, List.mem_cons, List.not_mem_nil, or_false] at hq
    rcases hq with rfl | rfl | rfl
    · exact ⟨p.data, howned p.data_mem_spans, hinside.data i hiq⟩
    · exact ⟨p.lower, howned p.lower_mem_spans, hinside.lower i hiq⟩
    · exact ⟨p.upper, howned p.upper_mem_spans, hinside.upper i hiq⟩
  · exact ⟨q, owned_subset ho (List.mem_append_left _ (op.recalled_subset hq)), hiq⟩

end Slot

/-- The places of all hits that words can lead to are elements of the outputs. -/
theorem Source.InRange.seenIn {room : Nat} {src : Source} (h : src.InRange room)
    (words : List UInt32) {P : Nat → Prop} (hP : ∀ p ∈ src.outputs, ∀ i ∈ p.data, P i) :
    Source.SeenIn { src with decoder := (src.decoder.decode words).2.1 } P
      (src.decoder.decode words).1 := by
  have hfed : InRange room { src with decoder := (src.decoder.decode words).2.1 } :=
    h.of_resting (by simp only [resting, Decoder.blank_decode])
  have hsame : (src.decoder.decode words).2.1.addressCount = src.decoder.addressCount := by
    rw [← addressCount_blank, Decoder.blank_decode, addressCount_blank]
  intro hit hh q hq
  have ha : hit.address < (src.decoder.decode words).2.1.addressCount :=
    hsame.symm ▸ h.faithful.address_lt words hit hh
  obtain ⟨hlt, -⟩ := (hfed.places?_eq ha).2 q hq
  obtain ⟨p, hp, hqp⟩ := mem_places hq
  rw [hqp] at hlt ⊢
  exact hP p hp _ ⟨Nat.le_add_right _ _, Nat.add_lt_add_left hlt _⟩

namespace Graph

/-- All slots are contained, and their nodes own spans of their own. -/
structure Contained (g : Graph) : Prop where
  wired : g.Wired
  slots : ∀ s ∈ g.slots, s.Contained g.arena.store.slots
  count : g.slots.length = Plan.maxEvents

theorem Contained.of_layout {g g' : Graph} (h : g.Contained) (hl : g'.layout = g.layout) :
    g'.Contained := by
  have hslots : g'.slots.map Slot.resting = g.slots.map Slot.resting :=
    congrArg Graph.Layout.slots hl
  refine ⟨h.wired.of_layout hl, fun s hs => ?_, ?_⟩
  · obtain ⟨t, ht, hts⟩ := List.mem_map.1 (hslots ▸ List.mem_map_of_mem hs :
      s.resting ∈ g.slots.map Slot.resting)
    rw [show g'.arena.store.slots = g.arena.store.slots from congrArg Graph.Layout.room hl]
    exact (h.slots t ht).of_resting hts.symm
  · have hlen := congrArg List.length hslots
    rw [List.length_map, List.length_map] at hlen
    exact hlen.trans h.count

theorem Wired.pipe_fits {g : Graph} (h : g.Wired) {s : Slot} (hs : s ∈ g.slots) {p : Pipe}
    (hp : p ∈ s.pipes) : p.data.stop ≤ g.arena.store.slots :=
  h.fits s hs _ (Slot.spans_subset_owned hp p.data_mem_spans)

theorem Wired.apart_slots {g : Graph} (h : g.Wired) {i j : Nat} {s t : Slot}
    (hs : g.slots[i]? = some s) (ht : g.slots[j]? = some t) (hij : i ≠ j) :
    ∀ p ∈ s.owned, ∀ q ∈ t.owned, p.Apart q := by
  have hpair := (List.pairwise_flatMap.1 h.apart).2
  obtain ⟨hi, rfl⟩ := List.getElem?_eq_some_iff.1 hs
  obtain ⟨hj, rfl⟩ := List.getElem?_eq_some_iff.1 ht
  rw [List.pairwise_iff_getElem] at hpair
  rcases Nat.lt_or_gt_of_ne hij with hlt | hlt
  · exact hpair i j hi hj hlt
  · exact fun p hp q hq => (hpair j i hj hi hlt q hq p hp).symm

/-- What a slot owns is out of reach for the nodes of the other slots. -/
theorem Wired.outside {g : Graph} (h : g.Wired) {i j : Nat} {s t : Slot}
    (hs : g.slots[i]? = some s) (ht : g.slots[j]? = some t) (hij : i ≠ j)
    {F : List String → Prop} (hF : ∀ op ∈ t.nodes, ∀ p, F p → ¬ op.Opens p) :
    Region.Outside ⟨(s.part F).slots, fun _ => False, F⟩ t := by
  have hapart := h.apart_slots hs ht hij
  constructor
  · rintro n hn q hq k hk ⟨p, hp, hkp⟩
    exact hapart p hp q (Slot.source_owned_subset hn (n.node.written_subset hq)) k hkp hk
  · intro n hn
    have hmem : n.node.operator ∈ t.nodes := List.mem_map_of_mem hn
    refine ⟨?_, fun _ _ => id, fun k hk hp => hF _ hmem _ hp ⟨k, hk, rfl⟩⟩
    rintro q hq k hk ⟨p, hp, hkp⟩
    have howned := Slot.owned_subset hmem (n.node.operator.changing_subset_owned hq)
    exact hapart p hp q howned k hkp hk

/-- A graph between two calls. -/
structure Idling (g : Graph) : Prop where
  contained : g.Contained
  queue : g.filler.queue = []

variable {g : Graph}

theorem Idling.onSlot {φ : Graph → Slot → Graph × Slot} (h : g.Idling) (hφ : Confined φ) (i : Nat) :
    (g.onSlot i φ).Idling :=
  ⟨h.contained.of_layout (layout_onSlot hφ.keeps g i), queue_onSlot hφ.queue g i h.queue⟩

/-- The counters of the graph belong to no slot. -/
theorem Idling.recount (h : g.Idling) (b : Bool) (m n : Nat) :
    Idling { g with running := b, events := m, ticks := n } :=
  ⟨h.contained.of_layout rfl, h.queue⟩

theorem Idling.apply (h : g.Idling) (c : RunCall) : (c.apply g).Idling :=
  ⟨h.contained.of_layout (layout_apply g c), queue_apply c h.queue⟩

theorem Idling.run (h : g.Idling) (calls : List RunCall) : (calls.foldl RunCall.apply g).Idling :=
  ⟨h.contained.of_layout (layout_run g calls), queue_run calls h.queue⟩

end Graph

open Workbench in
theorem Draft.Holding.contained {x : Prop} {d : Draft} (h : d.Holding x [] []) (volume : Volume) :
    (d.plan.build volume).Contained := by
  refine ⟨h.sound.wired volume, fun slot hslot => ?_, ?_⟩
  · obtain ⟨e, he, rfl⟩ := List.mem_map.1 hslot
    have hmem : e ∈ (d.bench [] []).plan.events := he
    have hin : ∀ {n : Numbered Source}, n ∈ e.slot.sources →
        n.node ∈ (d.bench [] []).allSources := fun hn =>
      List.mem_append_right _ (List.mem_flatMap.2 ⟨e, he, mem_of_mem_sortBy hn⟩)
    refine ⟨h.sound.inOrder hmem ((h.fed e he).pairwise (h.sound.event_apart hmem)), ?_,
      fun n hn => h.sound.inRange_source (hin hn) (h.faithful _ (hin hn)),
      fun n hn => (h.sound.sources _ (hin hn)).outputs_even⟩
    intro op ho v hv
    obtain ⟨o, hm, rfl⟩ := List.mem_map.1 ((nodes_slot_perm e).subset ho)
    obtain ⟨before, behind, hsplit⟩ := List.append_of_mem hm
    obtain ⟨p, hp, hpv⟩ := h.fed e he before o behind hsplit v hv
    refine ⟨p, ?_, hpv⟩
    rcases List.mem_append.1 hp with hp | hp
    · obtain ⟨src, hsrc, hp⟩ := List.mem_flatMap.1 hp
      have hnode := (sortBy_perm Source.moduleIndex e.sources).map Numbered.node
      rw [map_node_numbered] at hnode
      obtain ⟨n, hn, rfl⟩ := List.mem_map.1 (hnode.symm.subset hsrc)
      exact List.mem_append_left _ (List.mem_flatMap.2 ⟨n, hn, hp⟩)
    · obtain ⟨k, hk, hp⟩ := List.mem_flatMap.1 hp
      have hkm : k ∈ e.operators := hsplit ▸ List.mem_append_left _ hk
      refine List.mem_append_right _ (List.mem_flatMap.2 ⟨k.operator, ?_, hp⟩)
      exact (nodes_slot_perm e).symm.subset (List.mem_map_of_mem hkm)
  · rw [Plan.build, List.length_map]
    exact h.count

/-- A built analysis is contained, and its nodes rest. -/
theorem Config.contained_build {c : Config} {seed : UInt64} {volume : Volume} {a : Analysis}
    (h : c.build seed volume = .ok a) : a.graph.Contained := by
  obtain ⟨d, hd, hold⟩ := holding_build h
  rw [hd]
  exact hold.contained volume

theorem Config.idling_build {c : Config} {seed : UInt64} {volume : Volume} {a : Analysis}
    (h : c.build seed volume = .ok a) : a.graph.Idling := by
  obtain ⟨d, hd, -⟩ := holding_build h
  exact ⟨contained_build h, hd ▸ Graph.queue_build d.plan volume⟩

end Readout
