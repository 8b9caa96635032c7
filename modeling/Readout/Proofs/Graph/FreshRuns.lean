import Mathlib.Data.List.Induction
import Readout.Proofs.Graph.Lockstep

/-!
# Runs are isolated

Behind complete runs a graph has its layout and its constants in common with the one that was built,
and no sink has a file open. This is enough: the beginning of a run makes both the same, and calls
that handle only events that have begun keep them the same.
-/
namespace Readout

namespace Call

/-- The event that a call hands words to or ends. -/
def handles? : Call → Option Nat
  | feed e _ _ | endEvent e => some e
  | beginEvent _ | tick => none

/-- Words are handed to events, and events end, only after they have begun. -/
def InEvents (calls : List Call) : Prop :=
  ∀ i : Fin calls.length, ∀ e ∈ calls[i].handles?, .beginEvent e ∈ calls.take i

instance (calls : List Call) : Decidable (InEvents calls) :=
  inferInstanceAs (Decidable (∀ i : Fin calls.length, ∀ e ∈ calls[i].handles?, _ ∈ _))

theorem InEvents.of_append {calls : List Call} {c : Call} (h : InEvents (calls ++ [c])) :
    InEvents calls ∧ ∀ e ∈ c.handles?, .beginEvent e ∈ calls := by
  refine ⟨fun i e he => ?_, fun e he => ?_⟩
  · have hlt : (i : Nat) < (calls ++ [c]).length := by
      rw [List.length_append]
      exact Nat.lt_add_right _ i.isLt
    have hi := h ⟨i, hlt⟩ e (by simpa only [Fin.getElem_fin, List.getElem_append_left i.isLt])
    rwa [List.take_append_of_le_length i.isLt.le] at hi
  · have hi := h ⟨calls.length, by simp⟩ e (by simpa using he)
    simpa using hi

end Call

namespace Slot

/-- Sources without dither, no expressions, and sinks whose files can be created on a volume. -/
structure Repeatable (v : Volume) (s : Slot) : Prop where
  sources : ∀ n ∈ s.sources, n.node.plain = true
  operators : ∀ op ∈ s.nodes, op.kind.isExpression = false
  files : ∀ op ∈ s.nodes, ∀ path ∈ op.kind.path?, (v.create path).1.toOption.isSome = true

theorem repeatable_resting (v : Volume) (s : Slot) : s.resting.Repeatable v ↔ s.Repeatable v := by
  have hsources : (∀ n ∈ s.resting.sources, n.node.plain = true) ↔
      ∀ n ∈ s.sources, n.node.plain = true := List.forall_mem_map
  have hoperators : (∀ op ∈ s.resting.nodes, op.kind.isExpression = false) ↔
      ∀ op ∈ s.nodes, op.kind.isExpression = false := by
    rw [nodes_resting, List.forall_mem_map]
    simp only [Operator.kind_resting, Kind.isExpression_resting]
  have hfiles : (∀ op ∈ s.resting.nodes, ∀ path ∈ op.kind.path?,
      (v.create path).1.toOption.isSome = true) ↔
        ∀ op ∈ s.nodes, ∀ path ∈ op.kind.path?, (v.create path).1.toOption.isSome = true := by
    rw [nodes_resting, List.forall_mem_map]
    simp only [Operator.kind_resting, Kind.path?_resting]
  exact ⟨fun h => ⟨hsources.1 h.sources, hoperators.1 h.operators, hfiles.1 h.files⟩,
    fun h => ⟨hsources.2 h.sources, hoperators.2 h.operators, hfiles.2 h.files⟩⟩

end Slot

namespace Graph

variable {l : Layout} {g g' : Graph} {s : Slot} {calls : List Call}

def Layout.places (l : Layout) (v : Volume) (place : List String) : Prop :=
  ∃ s ∈ l.slots, ∃ op ∈ s.nodes, op.Creates v place

theorem Layout.housed {v : Volume} (hs : s ∈ l.slots) (h : s.Repeatable v) :
    s.Housed v (l.places v) := by
  intro op ho path hp
  have hok := h.files op ho path hp
  cases hk : (v.create path).1 with
  | error e =>
    rw [hk] at hok
    cases hok
  | ok k => exact ⟨k, rfl, s, hs, op, ho, path, hp, hk⟩

theorem Renewing.lockstep {v : Volume} {n : Nat} (h : Renewing l v (l.places v) n g g')
    (hn : l.slots.length ≤ n) (hb : g.running = g'.running) (hm : g.events = g'.events)
    (ht : g.ticks = g'.ticks) : Lockstep [] g g' := by
  have hlen : g.slots.length = l.slots.length := by
    rw [← h.layout]
    exact (List.length_map _).symm
  have hlen' : g'.slots.length = l.slots.length := by
    rw [← h.layout']
    exact (List.length_map _).symm
  have hall : ∀ {α : Type} (f : Slot → α), (∀ j < n, g.slots[j]?.map f = g'.slots[j]?.map f) →
      g.slots.map f = g'.slots.map f := by
    intro α f hf
    refine List.ext_getElem? fun j => ?_
    rw [List.getElem?_map, List.getElem?_map]
    by_cases hj : j < n
    · exact hf j hj
    · rw [List.getElem?_eq_none (by omega), List.getElem?_eq_none (by omega)]
  have hre := h.restarted
  rw [List.take_of_length_le hn] at hre
  refine ⟨⟨h.layout.trans h.layout'.symm, hb, hm, ht, hall _ h.operators, hall _ h.bits,
    hre.store.mono fun i hi => ?_, hre.agree fun _ => id⟩, h.left, h.right, fun e hb => by cases hb⟩
  obtain ⟨e, s, hs, ⟨p, hp, hi⟩ | ⟨hb, -⟩ | ⟨he, -⟩⟩ := hi
  · rw [h.layout] at hs
    have hmem := List.mem_of_getElem? hs
    rcases List.mem_append.1 hp with hp | hp
    · exact Or.inl ⟨s, hmem, p, hp, hi⟩
    · exact Or.inr ⟨s, hmem, p, hp, hi⟩
  · cases hb
  · cases he

namespace Lockstep

/-- The beginning of a run makes graphs the same that have nothing in common but their layout and
their constants, on volumes that earlier runs may have made of one. -/
theorem beginRun {v : Volume} (h : g.Idling) (h' : g'.Idling) (hl : g'.layout = g.layout)
    (hrep : ∀ s ∈ g.layout.slots, s.Repeatable v) (hc : ∀ s ∈ g.slots, s.Closed)
    (hc' : ∀ s ∈ g'.slots, s.Closed) (hv : v.UpTo (g.layout.places v) g.volume)
    (hv' : v.UpTo (g.layout.places v) g'.volume)
    (hfixed : ∀ s ∈ g.layout.slots,
      g.arena.store.AgreeOn (fun i => ∃ p ∈ s.fixed, i ∈ p) g'.arena.store) :
    Lockstep [] g.beginRun g'.beginRun := by
  have hstart : Renewing g.layout v (g.layout.places v) 0 g g' := by
    refine ⟨h, h', rfl, hl, fun j _ s hs => hc s (List.mem_of_getElem? hs),
      fun j _ s hs => hc' s (List.mem_of_getElem? hs), fun j hj => absurd hj (Nat.not_lt_zero j),
      fun j hj => absurd hj (Nat.not_lt_zero j), ?_, hv, hv', fun p hp => by simp at hp⟩
    refine ⟨(congrArg Layout.room hl).symm, fun i hi => ?_⟩
    obtain ⟨s, hs, hi⟩ := hi.resolve_right (by simp)
    exact (hfixed s hs).read_eq i hi
  have hlen : g.layout.slots.length = g.slots.length := List.length_map _
  have hround := onSlots_related (φ := beginRunSlot)
    (Q := fun n k k' => n ≤ g.slots.length → Renewing g.layout v (g.layout.places v) n k k')
    (fun n k k' hk hn => (hk (Nat.le_of_succ_le hn)).onSlot (hlen ▸ hn)
      (fun s hs => (hrep s hs).operators) fun s hs => Layout.housed hs (hrep s hs))
    (h'.contained.count.trans h.contained.count.symm) (fun _ => hstart) (Nat.le_refl _)
  exact (hround.recount true 0 0).lockstep hlen.le rfl rfl rfl

/-- A call that hands words to an event or ends it is the same for both graphs if the event has
begun in the run. -/
theorem apply {v : Volume} (h : Lockstep calls g g') (hrep : ∀ s ∈ g.layout.slots, s.Repeatable v)
    (c : Call) (hc : ∀ e ∈ c.handles?, .beginEvent e ∈ calls) :
    Lockstep (calls ++ [c]) (c.apply g) (c.apply g') := by
  have hslot : ∀ {e : Nat}, ∀ s ∈ g.slots[e]?, s.Repeatable v := fun s hs =>
    (s.repeatable_resting v).1 (hrep _ (List.mem_map_of_mem (List.mem_of_getElem? hs)))
  cases c with
  | beginEvent e => exact h.beginEvent e
  | feed e moduleIndex words =>
    exact h.feed (fun s hs => (hslot s hs).sources) (hc e rfl) moduleIndex words
  | endEvent e => exact h.endEvent (fun s hs => (hslot s hs).operators) (hc e rfl)
  | tick => exact h.tick

theorem run {v : Volume} (h : Lockstep [] g g') (hrep : ∀ s ∈ g.layout.slots, s.Repeatable v)
    (hcalls : Call.InEvents calls) :
    Lockstep calls (calls.foldl Call.apply g) (calls.foldl Call.apply g') := by
  -- from the end, because a call has to know which events have begun before it
  induction calls using List.reverseRecOn with
  | nil => exact h
  | append_singleton calls c ih =>
    obtain ⟨hcalls, hc⟩ := hcalls.of_append
    have hlayout : (calls.foldl Call.apply g).layout = g.layout := by
      have hrun := g.layout_run (calls.map RunCall.during)
      rwa [List.foldl_map] at hrun
    rw [List.foldl_append, List.foldl_append]
    exact (ih hcalls).apply (hlayout ▸ hrep) c hc

end Lockstep

/-- What calls of a run make of a graph is the same behind complete runs and on the graph as it was
built, if its sources add no random numbers, it has no expressions and its sinks can create their
files, and if words are handed to events only that have begun. -/
theorem run_isolated {c : Config} {seed : UInt64} {volume : Volume} {a : Analysis}
    (h : c.build seed volume = .ok a) (hrep : ∀ s ∈ a.graph.slots, s.Repeatable volume)
    (runs : List (List Call)) (calls : List Call) (hcalls : Call.InEvents calls) :
    let again := calls.foldl Call.apply
      ((runs.flatMap completeRun).foldl RunCall.apply a.graph).beginRun
    let fresh := calls.foldl Call.apply a.graph.beginRun
    SameRun calls again fresh ∧ SameRun calls again.endRun fresh.endRun := by
  intro again fresh
  have hidle := Config.idling_build h
  have hclosed := Config.closed_build h
  have hrep : ∀ s ∈ a.graph.layout.slots, s.Repeatable volume :=
    List.forall_mem_map.2 fun s hs => (s.repeatable_resting volume).2 (hrep s hs)
  let left := (runs.flatMap completeRun).foldl RunCall.apply a.graph
  have hlayout : left.layout = a.graph.layout := a.graph.layout_run _
  have hvolume : volume.UpTo (a.graph.layout.places volume) a.graph.volume := by
    rw [Config.volume_build h]
    exact .refl _ _
  have hhoused : ∀ s ∈ a.graph.slots, s.Housed volume (a.graph.layout.places volume) := by
    intro s hs
    have hmem : s.resting ∈ a.graph.layout.slots := List.mem_map_of_mem hs
    exact s.housed_resting ▸ Layout.housed hmem (hrep _ hmem)
  have hleftover : Leftover volume (a.graph.layout.places volume) left := by
    refine Leftover.run ⟨hvolume, hhoused, fun s hs op ho place hopen => ?_⟩ _
    exact absurd hopen (Operator.not_opens_of_closed (hclosed s hs op ho) place)
  have hfixed : ∀ s ∈ a.graph.layout.slots,
      left.arena.store.AgreeOn (fun i => ∃ p ∈ s.fixed, i ∈ p) a.graph.arena.store := by
    refine List.forall_mem_map.2 fun s hs => ?_
    rw [Slot.fixed_resting]
    exact (fixed_run hidle hs _).symm
  have hstart : Lockstep [] left.beginRun a.graph.beginRun := by
    rw [← hlayout] at hrep hvolume hleftover hfixed
    exact .beginRun (hidle.run _) hidle hlayout.symm hrep (closed_completeRuns runs hclosed) hclosed
      hleftover.volume hvolume hfixed
  have hbegun : left.beginRun.layout = a.graph.layout :=
    (layout_apply left .beginRun).trans hlayout
  have hrun := hstart.run (hbegun ▸ hrep) hcalls
  exact ⟨hrun.toSameRun, hrun.endRun.toSameRun⟩

/-- Hits of a group of words are kept, filled into histograms and written to a file. -/
def keptHits : Config where
  arenaCapacity := 4096
  strategy := .batched
  seed := some 1
  events := [⟨0, [⟨"hits", 3, none, true, false, .group ["AADD"] 1⟩],
    [⟨"kept", none, .keepPrevious "hits" false⟩,
      ⟨"file", none, .exportSink ["hits"] none "hits.bin" .full 0⟩,
      ⟨"bins", none, .histograms "kept" 4 none⟩]⟩]

theorem create_hits : (Volume.fresh.create "hits.bin").1 = .ok ⟨["run", "work", "hits.bin"]⟩ := by
  have hparts : Path.parts "hits.bin" = ["hits.bin"] := by
    rw [Path.parts, String.splitOn, if_neg (by decide)]
    repeat (rw [String.splitOnAux]; simp +decide)
  have hlocate : Volume.fresh.locate "hits.bin" = .ok ["run", "work", "hits.bin"] := by
    rw [Volume.locate, if_neg (by decide), if_neg (by decide), hparts]
    decide +kernel
  rw [Volume.create, hlocate]
  decide +kernel

theorem run_isolated_keptHits : ∃ a, keptHits.build 0 .fresh = .ok a ∧
    (∀ s ∈ a.graph.slots, s.Repeatable .fresh) ∧
      let runs : List (List Call) :=
        [[.beginEvent 0, .feed 0 3 [1, 6], .endEvent 0, .tick], [.feed 0 3 [5], .endEvent 0]]
      let calls : List Call := [.tick, .beginEvent 0, .feed 0 3 [9], .endEvent 0]
      let again := calls.foldl Call.apply
        ((runs.flatMap completeRun).foldl RunCall.apply a.graph).beginRun
      let fresh := calls.foldl Call.apply a.graph.beginRun
      Call.InEvents calls ∧ SameRun calls again fresh ∧
        SameRun calls again.endRun fresh.endRun := by
  obtain ⟨a, ha, htest⟩ := keptHits.exists_of_passes 0 .fresh
    (fun g => decide (∀ s ∈ g.slots, (∀ n ∈ s.sources, n.node.plain = true) ∧
      (∀ op ∈ Slot.nodes s, op.kind.isExpression = false) ∧
        ∀ op ∈ Slot.nodes s, ∀ path ∈ op.kind.path?, path = "hits.bin")) (by decide +kernel)
  have hrep : ∀ s ∈ a.graph.slots, s.Repeatable .fresh := by
    intro s hs
    obtain ⟨hsources, hoperators, hfiles⟩ := of_decide_eq_true htest s hs
    refine ⟨hsources, hoperators, fun op ho path hp => ?_⟩
    rw [hfiles op ho path hp, create_hits]
    rfl
  have hcalls : Call.InEvents [.tick, .beginEvent 0, .feed 0 3 [9], .endEvent 0] := by decide
  exact ⟨a, ha, hrep, hcalls, run_isolated ha hrep _ _ hcalls⟩

def hits (g : Graph) : List (List Value) :=
  g.slots.flatMap fun s => s.sources.map fun n => g.arena.store.values n.node.hitCounts

theorem SameRun.hits_eq (h : SameRun calls g g') : g.hits = g'.hits := by
  have hhits : ∀ k : Graph, k.hits = k.layout.slots.flatMap fun s =>
      s.sources.map fun n => k.arena.store.values n.node.hitCounts := fun k => by
    simp only [hits, Graph.layout, List.flatMap_map, Slot.resting, List.map_map]
    rfl
  rw [hhits, hhits, ← h.layout]
  refine List.flatMap_congr fun s hs => List.map_congr_left fun n hn => ?_
  obtain ⟨e, he⟩ := List.mem_iff_getElem?.1 hs
  refine h.store.values_eq fun i hi => ⟨e, s, he, Or.inl ⟨_, ?_, hi⟩⟩
  exact List.mem_append_right _ (List.mem_append_left _ (List.mem_map_of_mem hn))

def countedHits : Config where
  arenaCapacity := 4096
  strategy := .batched
  seed := some 1
  events := [⟨0, [⟨"hits", 3, none, true, false, .group ["AADD"] 1⟩], []⟩]

/-- Words that come before the event has begun are taken for words of the last event of an earlier
run, whose outputs are still there. -/
theorem run_isolated_early : ∃ a, countedHits.build 0 .fresh = .ok a ∧
    (∀ s ∈ a.graph.slots, s.Repeatable .fresh) ∧
      let runs : List (List Call) := [[.beginEvent 0, .feed 0 3 [1], .endEvent 0]]
      let calls : List Call := [.feed 0 3 [1], .beginEvent 0, .endEvent 0]
      let again := calls.foldl Call.apply
        ((runs.flatMap completeRun).foldl RunCall.apply a.graph).beginRun
      let fresh := calls.foldl Call.apply a.graph.beginRun
      (∀ before e rest, calls = before ++ .endEvent e :: rest → .beginEvent e ∈ before) ∧
        ¬ SameRun calls again fresh := by
  obtain ⟨a, ha, htest⟩ := countedHits.exists_of_passes 0 .fresh (fun g =>
    let calls : List Call := [.feed 0 3 [1], .beginEvent 0, .endEvent 0]
    let again := calls.foldl Call.apply
      (([[Call.beginEvent 0, .feed 0 3 [1], .endEvent 0]].flatMap completeRun).foldl
        RunCall.apply g).beginRun
    let fresh := calls.foldl Call.apply g.beginRun
    decide ((∀ s ∈ g.slots, (∀ n ∈ s.sources, n.node.plain = true) ∧ Slot.nodes s = []) ∧
      again.hits ≠ fresh.hits)) (by decide +kernel)
  obtain ⟨hslots, hhits⟩ := of_decide_eq_true htest
  refine ⟨a, ha, fun s hs => ?_, ?_, fun hsame => hhits hsame.hits_eq⟩
  · obtain ⟨hsources, hnodes⟩ := hslots s hs
    exact ⟨hsources, by simp [hnodes], by simp [hnodes]⟩
  · intro before e rest hsplit
    rcases before with - | ⟨c, - | ⟨c', - | ⟨c'', before⟩⟩⟩ <;> simp at hsplit
    obtain ⟨-, rfl, rfl, -⟩ := hsplit
    simp

end Graph

end Readout
