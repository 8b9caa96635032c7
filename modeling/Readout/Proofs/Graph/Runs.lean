import Readout.Proofs.Graph.Order
import Readout.Proofs.Operator.Filling
import Readout.Proofs.Operator.Phase
import Readout.Proofs.Source.Feed
import Readout.Record.Replay

/-!
# Runs keep the layout

Every call of a run goes through the slots of a graph and changes what their nodes keep. None of
them changes which nodes there are, in which order they stand, what they own and what they read.
-/
namespace Readout

/-- A call of a run. Calls may come in any order. -/
inductive RunCall
  | beginRun
  | during (c : Call)
  | endRun

def RunCall.apply (g : Graph) : RunCall → Graph
  | beginRun => g.beginRun
  | during c => c.apply g
  | endRun => g.endRun

def Numbered.map {α β : Type} (f : α → β) (n : Numbered α) : Numbered β := ⟨n.index, f n.node⟩

def RankedOperator.resting (o : RankedOperator) : RankedOperator :=
  { o with operator := o.operator.resting }

def Filler.emptied (f : Filler) : Filler := { f with queue := [] }

/-- A region without contents. What agrees on it has the same sizes. -/
def Region.none : Region := ⟨fun _ => False, fun _ => False, fun _ => False⟩

theorem Region.none_beyond (op : Operator) : Region.none.Beyond op :=
  ⟨fun _ _ _ _ => id, fun _ _ => id, fun _ _ => id⟩

namespace Slot

/-- A slot without the traces of a run. -/
def resting (s : Slot) : Slot where
  sources := s.sources.map (Numbered.map Source.resting)
  operators := s.operators.map (Numbered.map RankedOperator.resting)
  bits := s.bits.clear

theorem nodes_resting (s : Slot) : s.resting.nodes = s.nodes.map Operator.resting := by
  simp [nodes, resting, Numbered.map, RankedOperator.resting, Function.comp_def]

/-- Operators of one place that differ in the traces of runs only. -/
theorem forall₂_of_resting {ns ns' : List (Numbered RankedOperator)}
    (h : ns.map (Numbered.map RankedOperator.resting) =
      ns'.map (Numbered.map RankedOperator.resting)) :
    List.Forall₂ (fun n n' => n.map RankedOperator.resting = n'.map RankedOperator.resting)
      ns ns' := by
  rwa [← List.forall₂_eq_eq_eq, List.forall₂_map_left_iff, List.forall₂_map_right_iff] at h

variable {ns : List (Numbered RankedOperator)} {f : Frame}

theorem resting_mapOperators {φ : Operator → Frame → Operator × Frame}
    (hφ : ∀ op f, (φ op f).1.resting = op.resting) (ns : List (Numbered RankedOperator))
    (f : Frame) : (mapOperators φ ns f).1.map (Numbered.map RankedOperator.resting) =
      ns.map (Numbered.map RankedOperator.resting) := by
  induction ns generalizing f with
  | nil => rfl
  | cons n ns ih =>
    rw [mapOperators_cons, List.map_cons, List.map_cons, ih]
    simp only [Numbered.map, RankedOperator.resting, hφ]

theorem mapOperators_phase {φ : Operator → Frame → Operator × Frame} (hφ : Operator.Phase φ)
    (ns : List (Numbered RankedOperator)) (f : Frame) :
    (mapOperators φ ns f).2.filler = f.filler ∧ (mapOperators φ ns f).2.bits = f.bits ∧
      (mapOperators φ ns f).2.store.slots = f.store.slots := by
  induction ns generalizing f with
  | nil => exact ⟨rfl, rfl, rfl⟩
  | cons n ns ih =>
    obtain ⟨hq, hb, hs⟩ := ih (φ n.node.operator f).2
    exact ⟨hq.trans (hφ.filler _ f), hb.trans (hφ.bits _ f), hs.trans (hφ.slots _ f)⟩

theorem filler_mapOperators_step (ns : List (Numbered RankedOperator)) (f : Frame) :
    (mapOperators Operator.step ns f).2.filler.emptied = f.filler.emptied := by
  induction ns generalizing f with
  | nil => rfl
  | cons n ns ih =>
    obtain ⟨hs, hc, -⟩ := n.node.operator.filler_step_spec f
    refine (ih (n.node.operator.step f).2).trans ?_
    rw [Filler.emptied, Filler.emptied, hs, hc]

theorem mapSources_keeps (φ : Source → Store → Source × Store)
    (hφ : ∀ s st, (φ s st).1.resting = s.resting ∧ (φ s st).2.slots = st.slots)
    (ns : List (Numbered Source)) (st : Store) :
    (mapSources φ ns st).1.map (Numbered.map Source.resting) =
      ns.map (Numbered.map Source.resting) ∧ (mapSources φ ns st).2.slots = st.slots := by
  induction ns generalizing st with
  | nil => exact ⟨rfl, rfl⟩
  | cons n ns ih =>
    obtain ⟨hr, hs⟩ := ih (φ n.node st).2
    refine ⟨?_, hs.trans (hφ n.node st).2⟩
    simp only [mapSources, List.map_cons, hr]
    simp only [Numbered.map, (hφ n.node st).1]

theorem feedSources_keeps (moduleIndex : Nat) (words : List UInt32) (ns : List (Numbered Source))
    (st : Store) : (feedSources moduleIndex words ns st).1.map (Numbered.map Source.resting) =
      ns.map (Numbered.map Source.resting) ∧
        (feedSources moduleIndex words ns st).2.slots = st.slots := by
  induction ns generalizing st with
  | nil => exact ⟨rfl, rfl⟩
  | cons n ns ih =>
    rw [feedSources]
    split
    · obtain ⟨hr, hs⟩ := ih (n.node.feed st words).2.1
      refine ⟨?_, hs.trans (n.node.slots_feed st words)⟩
      simp only [List.map_cons, hr]
      simp only [Numbered.map, Source.resting_feed]
    · split
      · exact ⟨rfl, rfl⟩
      · obtain ⟨hr, hs⟩ := ih st
        exact ⟨by simp only [List.map_cons, hr], hs⟩

theorem mapSources_agree {P : Nat → Prop} {φ : Source → Store → Source × Store}
    (hφ : ∀ n s t, Store.AgreeOn P s t → (φ n s).1 = (φ n t).1 ∧ (φ n s).2.AgreeOn P (φ n t).2)
    (ns : List (Numbered Source)) {s t : Store} (h : s.AgreeOn P t) :
    (mapSources φ ns s).1 = (mapSources φ ns t).1 ∧
      (mapSources φ ns s).2.AgreeOn P (mapSources φ ns t).2 := by
  induction ns generalizing s t with
  | nil => exact ⟨rfl, h⟩
  | cons n ns ih =>
    obtain ⟨hn, hst⟩ := hφ n.node s t h
    obtain ⟨hns, hend⟩ := ih hst
    simp only [mapSources, hn, hns, true_and]
    exact hend

theorem feedSources_agree {P : Nat → Prop} (moduleIndex : Nat) (words : List UInt32)
    (ns : List (Numbered Source))
    (hP : ∀ n ∈ ns, Source.SeenIn
      { n.node with decoder := (n.node.decoder.decode words).2.1 } P (n.node.decoder.decode words).1)
    {s t : Store} (h : s.AgreeOn P t) :
    (feedSources moduleIndex words ns s).1 = (feedSources moduleIndex words ns t).1 ∧
      (feedSources moduleIndex words ns s).2.AgreeOn P (feedSources moduleIndex words ns t).2 := by
  induction ns generalizing s t with
  | nil => exact ⟨rfl, h⟩
  | cons n ns ih =>
    obtain ⟨hn, hP⟩ := List.forall_mem_cons.1 hP
    rw [feedSources, feedSources]
    split
    · obtain ⟨hn, hst⟩ := n.node.agree_feed h words hn
      obtain ⟨hns, hend⟩ := ih hP hst
      simp only [hn, hns, true_and]
      exact hend
    · split
      · exact ⟨rfl, h⟩
      · obtain ⟨hns, hend⟩ := ih hP h
        simp only [hns, true_and]
        exact hend

end Slot

theorem ConditionBits.eq_of_test {b c : ConditionBits} (hl : b.length = c.length)
    (ht : ∀ i, b.test i = c.test i) : b = c := by
  obtain ⟨xs⟩ := b
  obtain ⟨ys⟩ := c
  refine congrArg mk (List.ext_getElem hl fun i hx hy => ?_)
  have hi := ht i
  simp only [test, List.getD_eq_getElem?_getD, List.getElem?_eq_getElem hx,
    List.getElem?_eq_getElem hy, Option.getD_some] at hi
  exact hi

theorem ConditionBits.length_clear (b : ConditionBits) : b.clear.length = b.length :=
  List.length_replicate

theorem ConditionBits.clear_eq {b c : ConditionBits} (h : b.length = c.length) :
    b.clear = c.clear := congrArg new h

namespace Graph

/-- A function of slots that changes neither their layout nor the room in store and queue. -/
structure Keeps (φ : Graph → Slot → Graph × Slot) : Prop where
  slots : ∀ g s, (φ g s).1.slots = g.slots
  room : ∀ g s, (φ g s).1.arena.store.slots = g.arena.store.slots
  filler : ∀ g s, (φ g s).1.filler.emptied = g.filler.emptied
  resting : ∀ g s, (φ g s).2.resting = s.resting

theorem keeps_beginRunSlot : Keeps beginRunSlot := by
  have hsrc : ∀ (ns : List (Numbered Source)) (st : Store),
      (Slot.mapSources (fun n st => (n, n.beginRun st)) ns st).1.map
        (Numbered.map Source.resting) = ns.map (Numbered.map Source.resting) ∧
      (Slot.mapSources (fun n st => (n, n.beginRun st)) ns st).2.slots = st.slots :=
    Slot.mapSources_keeps _ fun s st => ⟨rfl, st.slots_fill s.hitCounts _⟩
  refine ⟨fun g s => rfl, fun g s => ?_, fun g s => ?_, fun g s => ?_⟩
  · exact ((Slot.mapOperators_phase Operator.phase_beginRun _ _).2.2).trans (hsrc s.sources _).2
  · exact congrArg Filler.emptied (Slot.mapOperators_phase Operator.phase_beginRun _ _).1
  · simp only [beginRunSlot, Slot.resting]
    rw [(hsrc s.sources _).1, Slot.resting_mapOperators Operator.phase_beginRun.resting]
    simp only [ConditionBits.clear_eq (ConditionBits.length_clear s.bits)]

theorem keeps_beginEventSlot : Keeps beginEventSlot := by
  have hsrc := Slot.mapSources_keeps Source.beginEvent fun s st =>
    ⟨s.resting_beginEvent st, s.slots_beginEvent st⟩
  refine ⟨fun g s => rfl, fun g s => (hsrc s.sources _).2, fun g s => rfl, fun g s => ?_⟩
  simp only [beginEventSlot, Slot.resting]
  rw [(hsrc s.sources _).1]
  simp only [ConditionBits.clear_eq (ConditionBits.length_clear s.bits)]

theorem keeps_feedSlot (moduleIndex : Nat) (words : List UInt32) :
    Keeps (feedSlot moduleIndex words) := by
  have hsrc := Slot.feedSources_keeps moduleIndex words
  refine ⟨fun g s => rfl, fun g s => (hsrc s.sources _).2, fun g s => rfl, fun g s => ?_⟩
  simp only [feedSlot, Slot.resting]
  rw [(hsrc s.sources _).1]

theorem keeps_endEventSlot : Keeps endEventSlot := by
  have hframe : ∀ (ns : List (Numbered RankedOperator)) (f : Frame),
      f.AgreeOn .none (Slot.mapOperators Operator.step ns f).2 := fun ns f =>
    Slot.mapOperators_step_frame (fun n _ => Region.none_beyond n.node.operator) f
  refine ⟨fun g s => rfl, fun g s => ?_, fun g s => ?_, fun g s => ?_⟩
  · exact (Filler.slots_flush _ _).trans (hframe s.operators _).store.slots_eq.symm
  · exact Slot.filler_mapOperators_step s.operators (g.frame s)
  · simp only [endEventSlot, Slot.resting]
    rw [Slot.resting_mapOperators Operator.resting_step,
      ConditionBits.clear_eq (hframe s.operators (g.frame s)).length_eq.symm]
    rfl

theorem keeps_tickSlot : Keeps tickSlot := by
  refine ⟨fun g s => rfl, fun g s => rfl, fun g s => rfl, fun g s => ?_⟩
  simp only [tickSlot, Slot.resting]
  rw [Slot.resting_mapOperators Operator.phase_tick.resting]

theorem keeps_endRunSlot : Keeps endRunSlot := by
  refine ⟨fun g s => rfl, fun g s => ?_, fun g s => ?_, fun g s => ?_⟩
  · exact (Slot.mapOperators_phase Operator.phase_endRun _ _).2.2
  · exact congrArg Filler.emptied (Slot.mapOperators_phase Operator.phase_endRun _ _).1
  · simp only [endRunSlot, Slot.resting]
    rw [Slot.resting_mapOperators Operator.phase_endRun.resting]

/-- What a run does not change: the layouts of all slots and the room in store and queue. -/
structure Layout where
  slots : List Slot
  room : Nat
  filler : Filler

def layout (g : Graph) : Layout :=
  ⟨g.slots.map Slot.resting, g.arena.store.slots, g.filler.emptied⟩

theorem getElem?_layout {l : Layout} {g : Graph} (hl : g.layout = l) (j : Nat) :
    l.slots[j]? = g.slots[j]?.map Slot.resting := by
  rw [← hl]
  exact List.getElem?_map

/-- Graphs of one layout have the same events. -/
theorem slot_eq_none_of_layout {g g' : Graph} (hl : g.layout = g'.layout) {j : Nat}
    (hs : g.slots[j]? = none) : g'.slots[j]? = none := by
  have hslot := getElem?_layout hl j
  rw [getElem?_layout rfl, hs, Option.map_none, Option.map_eq_none_iff] at hslot
  exact hslot

theorem layout_onSlot {φ : Graph → Slot → Graph × Slot} (hφ : Keeps φ) (g : Graph) (event : Nat) :
    (g.onSlot event φ).layout = g.layout := by
  rw [onSlot]
  split
  · rfl
  · next s hs =>
    change Layout.mk (((φ g s).1.slots.set event (φ g s).2).map Slot.resting) _ _ = _
    refine congr (congr (congrArg Layout.mk ?_) (hφ.room g s)) (hφ.filler g s)
    have hrest : (g.slots.map Slot.resting)[event]? = some s.resting := by
      rw [List.getElem?_map, hs, Option.map_some]
    obtain ⟨hlt, hget⟩ := List.getElem?_eq_some_iff.1 hrest
    rw [hφ.slots, List.map_set, hφ.resting, ← hget]
    exact List.set_getElem_self hlt

theorem layout_onSlots {φ : Graph → Slot → Graph × Slot} (hφ : Keeps φ) (g : Graph) :
    (g.onSlots φ).layout = g.layout := by
  have hfold : ∀ (is : List Nat) (g : Graph),
      (is.foldl (fun g i => g.onSlot i φ) g).layout = g.layout := by
    intro is
    induction is with
    | nil => exact fun g => rfl
    | cons i is ih => exact fun g => (ih _).trans (layout_onSlot hφ g i)
  exact hfold _ g

theorem layout_apply (g : Graph) (c : RunCall) : (c.apply g).layout = g.layout := by
  cases c with
  | beginRun => exact layout_onSlots keeps_beginRunSlot g
  | endRun => exact layout_onSlots keeps_endRunSlot g
  | during c =>
    cases c with
    | beginEvent event => exact layout_onSlot keeps_beginEventSlot g event
    | feed event moduleIndex words => exact layout_onSlot (keeps_feedSlot moduleIndex words) g event
    | endEvent event => exact layout_onSlot keeps_endEventSlot g event
    | tick => exact layout_onSlots keeps_tickSlot g

theorem layout_run (g : Graph) (calls : List RunCall) :
    (calls.foldl RunCall.apply g).layout = g.layout := by
  induction calls generalizing g with
  | nil => rfl
  | cons c calls ih => exact (ih _).trans (g.layout_apply c)

end Graph

end Readout
