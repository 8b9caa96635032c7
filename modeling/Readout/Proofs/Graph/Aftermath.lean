import Readout.Proofs.Graph.Separation
import Readout.Proofs.Operator.Renewal

/-!
# What runs leave behind

Whatever calls were made, the volume is what it was but for files in the places of the sinks. When
a run has ended, no sink has a file open any more. This is all that the next run has to know of the
files of earlier ones.
-/
namespace Readout

namespace Slot

/-- No sink of the slot has a file open. -/
def Closed (s : Slot) : Prop := ∀ op ∈ s.nodes, op.kind.opened = false

/-- All sinks of the slot can create their files on a volume, in places of a set. -/
def Housed (s : Slot) (v : Volume) (F : List String → Prop) : Prop := ∀ op ∈ s.nodes, op.Housed v F

theorem housed_resting (s : Slot) : s.resting.Housed = s.Housed := by
  funext v F
  simp only [Housed, nodes_resting, List.forall_mem_map, Operator.housed_resting]

theorem Housed.of_resting {s t : Slot} {v : Volume} {F : List String → Prop} (h : s.Housed v F)
    (hr : t.resting = s.resting) : t.Housed v F := by
  rwa [← housed_resting, hr, housed_resting]

end Slot

namespace Operator

variable {op : Operator} {f : Frame} {v : Volume} {F : List String → Prop}

theorem opened_endRun (op : Operator) (f : Frame) : (op.endRun f).1.kind.opened = false := by
  obtain ⟨inputs, outputs, gate, kind⟩ := op
  cases kind with
  | exportSink s =>
    simp only [endRun, ExportSink.endRun, Kind.opened]
    cases hw : s.writer with
    | none => simp [hw]
    | some w =>
      dsimp only
      split <;> rfl
  | _ => rfl

theorem beginRun_upTo (hk : op.Housed v F) (hold : ∀ place, op.Opens place → F place)
    (h : v.UpTo F f.volume) : v.UpTo F (op.beginRun f).2.volume ∧
      ∀ place, (op.beginRun f).1.Opens place → F place := by
  obtain ⟨inputs, outputs, gate, kind⟩ := op
  cases kind with
  | exportSink s =>
    obtain ⟨k, hk, hF⟩ := hk s.path rfl
    obtain ⟨hvolume, hopen⟩ := s.beginRun_upTo (fun e he => hold e.place ⟨e, he, rfl⟩) hk hF h
    refine ⟨hvolume, ?_⟩
    rintro place ⟨e, he, rfl⟩
    rw [hopen e he]
    exact hF
  | histograms hs =>
    simp only [beginRun, Histogram.clearEach_eq]
    exact ⟨h, fun place hopen => by obtain ⟨e, he, -⟩ := hopen; cases he⟩
  | _ => exact ⟨h, fun place hopen => hold place hopen⟩

end Operator

namespace Graph

/-- A graph that runs have made of one with a given volume: of the volume it has changed files in
a set of places only, and these are where its sinks write. -/
structure Leftover (v : Volume) (F : List String → Prop) (g : Graph) : Prop where
  volume : v.UpTo F g.volume
  housed : ∀ s ∈ g.slots, s.Housed v F
  files : ∀ s ∈ g.slots, ∀ op ∈ s.nodes, ∀ place, op.Opens place → F place

variable {v : Volume} {F : List String → Prop} {g : Graph} {s : Slot}
  {φ : Graph → Slot → Graph × Slot}

theorem Leftover.onSlot (h : Leftover v F g) (hφ : Keeps φ)
    (hown : ∀ s ∈ g.slots, v.UpTo F (φ g s).1.volume ∧
      ∀ op ∈ (φ g s).2.nodes, ∀ place, op.Opens place → F place) (i : Nat) :
    Leftover v F (g.onSlot i φ) := by
  cases hs : g.slots[i]? with
  | none => rwa [onSlot_of_none hs]
  | some s =>
    have hmem := List.mem_of_getElem? hs
    obtain ⟨hvolume, hfiles⟩ := hown s hmem
    rw [onSlot_of_some hs]
    refine ⟨hvolume, fun t ht => ?_, fun t ht => ?_⟩
    · rw [hφ.slots] at ht
      rcases List.mem_or_eq_of_mem_set ht with ht | rfl
      · exact h.housed t ht
      · exact (h.housed s hmem).of_resting (hφ.resting g s)
    · rw [hφ.slots] at ht
      rcases List.mem_or_eq_of_mem_set ht with ht | rfl
      · exact h.files t ht
      · exact hfiles

theorem Leftover.onSlot_local (h : Leftover v F g) (hφ : Local φ) (i : Nat) :
    Leftover v F (g.onSlot i φ) := by
  refine h.onSlot hφ.keeps (fun s hs => ⟨?_, fun op ho place hopen => ?_⟩) i
  · have houtside : Region.Outside ⟨fun _ => False, fun _ => False, fun p => ¬ F p⟩ s :=
      ⟨fun _ _ _ _ _ _ => id, fun n hn => ⟨fun _ _ _ _ => id, fun _ _ => id,
        fun k hk hn' => hn' (h.files s hs _ (List.mem_map_of_mem hn) _ ⟨k, hk, rfl⟩)⟩⟩
    exact h.volume.trans (.of_agreeOn (hφ.volume g s _ houtside))
  · obtain ⟨op', ho', hopen'⟩ := hφ.opens g s op ho place hopen
    exact h.files s hs op' ho' place hopen'

theorem Leftover.beginRunSlot (h : Leftover v F g) (hs : s ∈ g.slots) :
    v.UpTo F (beginRunSlot g s).1.volume ∧
      ∀ op ∈ (Graph.beginRunSlot g s).2.nodes, ∀ place, op.Opens place → F place := by
  have hall : ∀ (ns : List (Numbered RankedOperator)) (f : Frame),
      (∀ n ∈ ns, n.node.operator.Housed v F ∧
        ∀ place, n.node.operator.Opens place → F place) → v.UpTo F f.volume →
        v.UpTo F (Slot.mapOperators Operator.beginRun ns f).2.volume ∧
          ∀ n ∈ (Slot.mapOperators Operator.beginRun ns f).1,
            ∀ place, n.node.operator.Opens place → F place := by
    intro ns
    induction ns with
    | nil => exact fun f _ hf => ⟨hf, fun n hn => by cases hn⟩
    | cons n ns ih =>
      intro f hns hf
      obtain ⟨hn, hns⟩ := List.forall_mem_cons.1 hns
      obtain ⟨hvolume, hopen⟩ := Operator.beginRun_upTo hn.1 hn.2 hf
      obtain ⟨hend, hrest⟩ := ih _ hns hvolume
      rw [Slot.mapOperators_cons]
      exact ⟨hend, List.forall_mem_cons.2 ⟨hopen, hrest⟩⟩
  obtain ⟨hvolume, hopen⟩ := hall s.operators ((g.withStore (Slot.mapSources (fun n st =>
    (n, n.beginRun st)) s.sources g.arena.store).2).frame s) (fun n hn =>
      ⟨h.housed s hs _ (List.mem_map_of_mem hn), h.files s hs _ (List.mem_map_of_mem hn)⟩) h.volume
  exact ⟨hvolume, List.forall_mem_map.2 hopen⟩

theorem Leftover.recount (h : Leftover v F g) (b : Bool) (m n : Nat) :
    Leftover v F { g with running := b, events := m, ticks := n } := ⟨h.volume, h.housed, h.files⟩

theorem Leftover.apply (h : Leftover v F g) (c : RunCall) : Leftover v F (c.apply g) := by
  have hround : ∀ {φ}, Local φ → Leftover v F (g.onSlots φ) := fun hφ =>
    onSlots_induction (fun _ i hk => hk.onSlot_local hφ i) h
  cases c with
  | beginRun =>
    refine Leftover.recount (onSlots_induction (fun k i hk => ?_) h) _ _ _
    exact hk.onSlot keeps_beginRunSlot (fun s hs => hk.beginRunSlot hs) i
  | endRun => exact (hround local_endRunSlot).recount _ _ _
  | during c =>
    cases c with
    | beginEvent e => exact h.onSlot_local local_beginEventSlot e
    | feed e moduleIndex words => exact h.onSlot_local (local_feedSlot moduleIndex words) e
    | endEvent e => exact h.onSlot_local local_endEventSlot e
    | tick => exact (hround local_tickSlot).recount _ _ _

theorem Leftover.run (h : Leftover v F g) (calls : List RunCall) :
    Leftover v F (calls.foldl RunCall.apply g) := by
  induction calls generalizing g with
  | nil => exact h
  | cons c calls ih => exact ih (h.apply c)

/-- What a function makes of each slot holds of all slots after a round. -/
theorem forall_slot_onSlots (hφ : Keeps φ) {Q : Slot → Prop} (hQ : ∀ g s, Q (φ g s).2) :
    ∀ s ∈ (g.onSlots φ).slots, Q s := by
  have hfold : ∀ (is : List Nat) (g : Graph),
      (∀ (j : Nat) s, g.slots[j]? = some s → j ∈ is ∨ Q s) →
        ∀ (j : Nat) s, (is.foldl (fun g i => g.onSlot i φ) g).slots[j]? = some s → Q s := by
    intro is
    induction is with
    | nil => exact fun g hg j s hs => (hg j s hs).resolve_left (by simp)
    | cons i is ih =>
      intro g hg
      refine ih _ fun j s hs => ?_
      rw [slots_onSlot hφ] at hs
      split at hs
      · obtain ⟨t, -, rfl⟩ := Option.map_eq_some_iff.1 hs
        exact Or.inr (hQ g t)
      · next hij =>
        rcases hg j s hs with hj | hj
        · exact Or.inl ((List.mem_cons.1 hj).resolve_left fun h => hij h.symm)
        · exact Or.inr hj
  intro s hs
  obtain ⟨j, hj⟩ := List.mem_iff_getElem?.1 hs
  refine hfold _ g (fun j s hs => Or.inl ?_) j s hj
  rw [List.mem_range]
  exact (List.getElem?_eq_some_iff.1 hs).1

theorem closed_endRun (g : Graph) : ∀ s ∈ g.endRun.slots, s.Closed := by
  refine forall_slot_onSlots keeps_endRunSlot fun g s => ?_
  have hall : ∀ (ns : List (Numbered RankedOperator)) (f : Frame),
      ∀ n ∈ (Slot.mapOperators Operator.endRun ns f).1, n.node.operator.kind.opened = false := by
    intro ns
    induction ns with
    | nil => exact fun f n hn => by cases hn
    | cons n ns ih =>
      intro f
      rw [Slot.mapOperators_cons]
      exact List.forall_mem_cons.2 ⟨n.node.operator.opened_endRun f, ih _⟩
  exact List.forall_mem_map.2 (hall s.operators (g.frame s))

/-- Calls from the beginning of a run to its end. -/
def completeRun (calls : List Call) : List RunCall :=
  RunCall.beginRun :: calls.map RunCall.during ++ [RunCall.endRun]

theorem closed_completeRuns (runs : List (List Call)) (h : ∀ s ∈ g.slots, s.Closed) :
    ∀ s ∈ ((runs.flatMap completeRun).foldl RunCall.apply g).slots, s.Closed := by
  -- only the last call of a run matters, whatever the run has opened before
  induction runs generalizing g with
  | nil => exact h
  | cons calls runs ih =>
    rw [List.flatMap_cons, List.foldl_append]
    refine ih ?_
    rw [completeRun, List.cons_append, List.foldl_cons, List.foldl_append]
    exact closed_endRun _

end Graph

theorem Config.volume_build {c : Config} {seed : UInt64} {volume : Volume} {a : Analysis}
    (h : c.build seed volume = .ok a) : a.graph.volume = volume := by
  obtain ⟨d, hd, -⟩ := holding_build h
  rw [hd]
  rfl

open Workbench in
theorem Config.closed_build {c : Config} {seed : UInt64} {volume : Volume} {a : Analysis}
    (h : c.build seed volume = .ok a) : ∀ s ∈ a.graph.slots, s.Closed := by
  obtain ⟨d, hd, hold⟩ := holding_build h
  rw [hd]
  intro s hs op ho
  obtain ⟨e, he, rfl⟩ := List.mem_map.1 hs
  obtain ⟨o, hm, rfl⟩ := List.mem_map.1 ((nodes_slot_perm e).subset ho)
  have hall : o.operator ∈ (d.bench [] []).allOperators :=
    List.mem_append_right _ (List.mem_flatMap.2 ⟨e, he, List.mem_map_of_mem hm⟩)
  exact (hold.sound.operators _ hall).opened_eq

end Readout
