import Readout.Graph.Basic
import Readout.Proofs.Graph.Places
import Readout.Proofs.Graph.Workbench
import Readout.Proofs.Operator.Footprint

/-!
# Running order

The operators of an event stand by rank, and operators of one rank as they were added. So each of
them stands behind all operators that write one of its inputs or its gate bit, and no operator
behind it writes what it reads: what an operator sees when it steps is what is there when all
operators of the event have stepped.
-/
namespace Readout

section Sorting

variable {α : Type} {key : α → Nat}

/-- In front by the key, or by the number if the keys are equal. -/
def Numbered.Before (key : α → Nat) (m n : Numbered α) : Prop :=
  key m.node < key n.node ∨ key m.node = key n.node ∧ m.index < n.index

theorem pairwise_numbered (nodes : List α) :
    (numbered nodes).Pairwise fun m n => m.index < n.index := by
  rw [numbered, List.pairwise_map, List.pairwise_iff_getElem]
  intro i j hi hj hij
  simpa using hij

theorem sortBy_perm (key : α → Nat) (nodes : List α) :
    (sortBy key nodes).Perm (numbered nodes) := by
  rw [sortBy_eq]
  exact List.mergeSort_perm _ _

theorem mem_of_mem_sortBy {nodes : List α} {n : Numbered α} (h : n ∈ sortBy key nodes) :
    n.node ∈ nodes := by
  rw [← map_node_numbered nodes]
  exact List.mem_map_of_mem ((sortBy_perm key nodes).subset h)

/-- Nodes that were added in order stay where they are. -/
theorem sortBy_of_pairwise {nodes : List α} (h : nodes.Pairwise fun a b => key a ≤ key b) :
    sortBy key nodes = numbered nodes := by
  rw [sortBy_eq]
  refine List.mergeSort_of_pairwise ?_
  have hzip : (nodes.zipIdx.map Prod.fst).Pairwise fun a b => key a ≤ key b := by
    rwa [List.zipIdx_map_fst]
  rw [numbered, List.pairwise_map]
  simpa using List.pairwise_map.1 hzip

/-- The sort is stable. -/
theorem pairwise_sortBy (key : α → Nat) (nodes : List α) :
    (sortBy key nodes).Pairwise (Numbered.Before key) := by
  let le (m n : Numbered α) : Bool := key m.node ≤ key n.node
  have htrans : ∀ a b c, le a b → le b c → le a c := fun a b c hab hbc => by
    simp only [le, decide_eq_true_eq] at hab hbc ⊢
    omega
  have htotal : ∀ a b, le a b || le b a := fun a b => by
    simp only [le, Bool.or_eq_true, decide_eq_true_eq]
    omega
  have hplace : ∀ x ∈ (numbered nodes).zipIdx, x.2 = x.1.index := by
    intro x hx
    obtain ⟨i, hi, rfl⟩ := List.mem_iff_getElem.1 hx
    simp [numbered]
  have hle : (sortBy key nodes).Pairwise fun m n =>
      key m.node < key n.node ∨ key m.node = key n.node ∧ m.index ≤ n.index := by
    have hsort : sortBy key nodes =
        ((numbered nodes).zipIdx.mergeSort (List.zipIdxLE le)).map Prod.fst :=
      (sortBy_eq key nodes).trans List.mergeSort_zipIdx.symm
    rw [hsort, List.pairwise_map]
    refine (List.pairwise_mergeSort (List.zipIdxLE_trans htrans) (List.zipIdxLE_total htotal)
      _).imp_of_mem fun {m n} hm hn h => ?_
    have hm := hplace m (List.mem_mergeSort.1 hm)
    have hn := hplace n (List.mem_mergeSort.1 hn)
    rw [List.zipIdxLE] at h
    simp only [le, decide_eq_true_eq] at h
    split at h
    · split at h
      · rw [hm, hn, decide_eq_true_eq] at h
        omega
      · omega
    · cases h
  have hne : (sortBy key nodes).Pairwise fun m n => m.index ≠ n.index :=
    ((pairwise_numbered nodes).imp fun h => Nat.ne_of_lt h).perm (sortBy_perm key nodes).symm
      fun h => h.symm
  refine (hle.and hne).imp fun {m n} h => ?_
  rcases h.1 with hlt | ⟨heq, hle⟩
  · exact Or.inl hlt
  · exact Or.inr ⟨heq, Nat.lt_of_le_of_ne hle h.2⟩

end Sorting

/-- Operators of one event in an order in which each stands behind what it depends on. -/
structure InOrder (ops : List Operator) : Prop where
  laid : Laid ops
  bits : ops.Pairwise Operator.BitsApart
  order : ops.Pairwise fun a b => ¬ b.Precedes a
  selfless : ∀ a ∈ ops, ¬ a.Gates a

namespace InOrder

variable {ops ops' : List Operator}

theorem map_resting : InOrder (ops.map Operator.resting) ↔ InOrder ops := by
  have hbits : ∀ a b : Operator, a.resting.BitsApart b.resting ↔ a.BitsApart b := fun a b => by
    simp [Operator.BitsApart, Operator.OwnsBit]
  have hgates : ∀ a b : Operator, a.resting.Gates b.resting ↔ a.Gates b := fun a b => by
    simp [Operator.Gates, Operator.OwnsBit]
  constructor
  · rintro ⟨hlaid, hb, ho, hs⟩
    simp only [List.pairwise_map, List.forall_mem_map, hbits, hgates, Laid.map_resting,
      Operator.precedes_resting] at *
    exact ⟨hlaid, hb, ho, hs⟩
  · rintro ⟨hlaid, hb, ho, hs⟩
    constructor <;> simpa only [List.pairwise_map, List.forall_mem_map, hbits, hgates,
      Laid.map_resting, Operator.precedes_resting]

theorem of_resting (h : InOrder ops) (hr : ops'.map Operator.resting = ops.map Operator.resting) :
    InOrder ops' := by
  rw [← map_resting, hr, map_resting]
  exact h

end InOrder

/-- What an operator takes from others: the contents of its inputs and its gate bit. -/
def Operator.sees (op : Operator) : Region where
  slots i := ∃ p ∈ op.inputs.flatMap Pipe.spans, i ∈ p
  bits i := op.gate = some i
  files _ := False

theorem Operator.sees_beyond {a b : Operator} (hu : b.Unread a) (hg : ¬ b.Gates a) :
    a.sees.Beyond b := by
  refine ⟨?_, fun i hb hi => hg ⟨i, hi, hb⟩, fun _ _ => id⟩
  rintro p hp i hi ⟨q, hq, hiq⟩
  obtain ⟨v, hv, hq⟩ := List.mem_flatMap.1 hq
  exact hu p (b.changing_subset_owned hp) v hv q hq i hi hiq

theorem InOrder.sees_beyond {before behind : List Operator} {op : Operator}
    (h : InOrder (before ++ op :: behind)) : ∀ m ∈ op :: behind, op.sees.Beyond m := by
  have hop : op ∈ before ++ op :: behind := List.mem_append_right _ List.mem_cons_self
  intro m hm
  rcases List.mem_cons.1 hm with rfl | hm
  · exact Operator.sees_beyond (h.laid.alone m hop) (h.selfless m hop)
  · have hmem : m ∈ before ++ op :: behind :=
      List.mem_append_right _ (List.mem_cons_of_mem op hm)
    have hnot : ¬ m.Precedes op :=
      List.rel_of_pairwise_cons (List.pairwise_append.1 h.order).2.1 hm
    refine Operator.sees_beyond ?_ fun hg => hnot (Or.inr hg)
    exact (h.laid.reads m hmem op hop).resolve_left fun hf => hnot (Or.inl hf)

namespace Slot

def nodes (s : Slot) : List Operator := s.operators.map fun n => n.node.operator

theorem mapOperators_cons (f : Operator → Frame → Operator × Frame)
    (n : Numbered RankedOperator) (ns : List (Numbered RankedOperator)) (fr : Frame) :
    mapOperators f (n :: ns) fr =
      ({ n with node := { n.node with operator := (f n.node.operator fr).1 } } ::
          (mapOperators f ns (f n.node.operator fr).2).1,
        (mapOperators f ns (f n.node.operator fr).2).2) := rfl

theorem mapOperators_append (f : Operator → Frame → Operator × Frame)
    (ns ms : List (Numbered RankedOperator)) (fr : Frame) :
    mapOperators f (ns ++ ms) fr =
      ((mapOperators f ns fr).1 ++ (mapOperators f ms (mapOperators f ns fr).2).1,
        (mapOperators f ms (mapOperators f ns fr).2).2) := by
  induction ns generalizing fr with
  | nil => rfl
  | cons n ns ih =>
    simp only [List.cons_append, mapOperators_cons, ih]

/-- What two frames have in common while an operator works on both, they have in common when all
operators have. -/
theorem mapOperators_related {φ : Operator → Frame → Operator × Frame} {Q : Frame → Frame → Prop}
    (ns : List (Numbered RankedOperator))
    (hφ : ∀ n ∈ ns, ∀ f g, Q f g → (φ n.node.operator f).1 = (φ n.node.operator g).1 ∧
      Q (φ n.node.operator f).2 (φ n.node.operator g).2) {f g : Frame} (h : Q f g) :
    (mapOperators φ ns f).1 = (mapOperators φ ns g).1 ∧
      Q (mapOperators φ ns f).2 (mapOperators φ ns g).2 := by
  induction ns generalizing f g with
  | nil => exact ⟨rfl, h⟩
  | cons n ns ih =>
    obtain ⟨hn, hφ⟩ := List.forall_mem_cons.1 hφ
    obtain ⟨hop, hfg⟩ := hn f g h
    obtain ⟨hns, hend⟩ := ih hφ hfg
    rw [mapOperators_cons, mapOperators_cons, hop, hns]
    exact ⟨rfl, hend⟩

/-- Operators of two lists, one by one, on two frames. What the frames have in common may grow with
the operators that have worked on them. -/
theorem mapOperators_paired {φ : Operator → Frame → Operator × Frame}
    {T : Numbered RankedOperator → Numbered RankedOperator → Prop}
    (ns : List (Numbered RankedOperator))
    (T' : Numbered RankedOperator → Numbered RankedOperator → Prop)
    (Q : List (Numbered RankedOperator) → Frame → Frame → Prop)
    (hφ : ∀ before n behind n' f f', ns = before ++ n :: behind → T n n' → Q before f f' →
      T' { n with node := { n.node with operator := (φ n.node.operator f).1 } }
          { n' with node := { n'.node with operator := (φ n'.node.operator f').1 } } ∧
        Q (before ++ [n]) (φ n.node.operator f).2 (φ n'.node.operator f').2)
    {before behind behind' : List (Numbered RankedOperator)} (hsplit : ns = before ++ behind)
    (hT : List.Forall₂ T behind behind') {f f' : Frame} (h : Q before f f') :
    List.Forall₂ T' (mapOperators φ behind f).1 (mapOperators φ behind' f').1 ∧
      Q ns (mapOperators φ behind f).2 (mapOperators φ behind' f').2 := by
  induction hT generalizing before f f' with
  | nil =>
    rw [hsplit, List.append_nil]
    exact ⟨.nil, h⟩
  | cons hn hT ih =>
    obtain ⟨hop, hnext⟩ := hφ before _ _ _ f f' hsplit hn h
    obtain ⟨hops, hend⟩ := ih (hsplit.trans (List.append_cons _ _ _)) hnext
    exact ⟨.cons hop hops, hend⟩

/-- What holds between a frame and what an operator makes of it, and can be chained, holds between
the frame and what all operators make of it. -/
theorem mapOperators_chain {φ : Operator → Frame → Operator × Frame} {T : Frame → Frame → Prop}
    {ns : List (Numbered RankedOperator)} (hrefl : ∀ f, T f f)
    (htrans : ∀ {f g k}, T f g → T g k → T f k)
    (hφ : ∀ n ∈ ns, ∀ f : Frame, T f (φ n.node.operator f).2) (f : Frame) :
    T f (mapOperators φ ns f).2 := by
  induction ns generalizing f with
  | nil => exact hrefl f
  | cons n ns ih =>
    obtain ⟨hn, hφ⟩ := List.forall_mem_cons.1 hφ
    exact htrans (hn f) (ih hφ _)

theorem mapOperators_frame {φ : Operator → Frame → Operator × Frame} {R : Region}
    {ns : List (Numbered RankedOperator)}
    (hφ : ∀ n ∈ ns, ∀ f : Frame, f.AgreeOn R (φ n.node.operator f).2) (f : Frame) :
    f.AgreeOn R (mapOperators φ ns f).2 :=
  mapOperators_chain (.refl R) .trans hφ f

theorem mapOperators_store {φ : Operator → Frame → Operator × Frame} {P : Nat → Prop}
    {ns : List (Numbered RankedOperator)}
    (hφ : ∀ n ∈ ns, ∀ f : Frame, f.store.AgreeOn P (φ n.node.operator f).2.store) (f : Frame) :
    f.store.AgreeOn P (mapOperators φ ns f).2.store :=
  mapOperators_chain (T := fun f k => f.store.AgreeOn P k.store) (fun f => .refl P f.store)
    .trans hφ f

theorem mapOperators_step_frame {R : Region} {ns : List (Numbered RankedOperator)}
    (hR : ∀ n ∈ ns, R.Beyond n.node.operator) (f : Frame) :
    f.AgreeOn R (mapOperators Operator.step ns f).2 :=
  mapOperators_frame (fun n hn => Operator.step_frame (hR n hn)) f

/-- Steps on frames that agree on all that is looked at keep up the agreement. -/
theorem mapOperators_step_agree {R : Region} (ns : List (Numbered RankedOperator)) {f g : Frame}
    (hslots : ∀ n ∈ ns, ∀ i, n.node.operator.reads.slots i → R.slots i)
    (hbits : ∀ n ∈ ns, ∀ i, n.node.operator.gate = some i → R.bits i)
    (hq : f.filler = g.filler) (h : f.AgreeOn R g) :
    (mapOperators Operator.step ns f).1 = (mapOperators Operator.step ns g).1 ∧
      (mapOperators Operator.step ns f).2.AgreeOn R (mapOperators Operator.step ns g).2 ∧
        (mapOperators Operator.step ns f).2.filler =
          (mapOperators Operator.step ns g).2.filler := by
  refine mapOperators_related ns (Q := fun f g => f.AgreeOn R g ∧ f.filler = g.filler)
    (fun n hn f g ⟨h, hq⟩ => ?_) ⟨h, hq⟩
  have hreads : f.AgreeOn n.node.operator.reads g :=
    h.mono (hslots n hn) (hbits n hn) fun _ => False.elim
  exact Operator.step_agree hreads.indistinct hq h

end Slot

/-- What the ranks of an event plan, and the order in which its operators run, have to do with the
dependencies between them. -/
structure RunningOrder (e : EventPlan) (slot : Slot) : Prop where
  ranks : ∀ a ∈ e.operators, ∀ b ∈ e.operators,
    a.operator.Precedes b.operator → a.rank < b.rank
  perm : slot.operators.Perm (numbered e.operators)
  sorted : slot.operators.Pairwise (Numbered.Before RankedOperator.rank)
  upstream : ∀ before n behind, slot.operators = before ++ n :: behind →
    ∀ m ∈ slot.operators, m.node.operator.Precedes n.node.operator → m ∈ before
  /-- In every state of the slot an operator steps on inputs and a gate bit that are final. -/
  settled : ∀ (s : Slot) (f : Frame),
    s.nodes.map Operator.resting = slot.nodes.map Operator.resting →
      ∀ before n behind, s.operators = before ++ n :: behind →
        let during := (Slot.mapOperators Operator.step before f).2
        let final := (Slot.mapOperators Operator.step s.operators f).2
        n.node.operator.inputValues during = n.node.operator.inputValues final ∧
          n.node.operator.isOpen during.bits = n.node.operator.isOpen final.bits

namespace Workbench

variable {w : Workbench} {e : EventPlan}

theorem Sound.rank_lt (h : w.Sound) (he : e ∈ w.plan.events)
    (hfirst : e.operators.Pairwise fun a b => ¬ b.operator.Feeds a.operator) :
    ∀ a ∈ e.operators, ∀ b ∈ e.operators, a.operator.Precedes b.operator → a.rank < b.rank := by
  have ho := h.events e he
  have hl := h.laid he
  have hself : ∀ a ∈ e.operators, ¬ a.operator.Precedes a.operator := by
    rintro a ha (hf | hg)
    · exact (hl.alone a.operator (List.mem_map_of_mem ha)).not_feeds hf
    · exact ho.selfless a ha hg
  refine List.Pairwise.forall_of_forall_of_flip (fun a ha hp => absurd hp (hself a ha)) ho.ranks ?_
  refine (hfirst.and ho.gates).imp fun {a b} hab hp => ?_
  rcases hp with hf | hg
  · exact absurd hf hab.1
  · exact absurd hg hab.2

theorem nodes_slot_perm (e : EventPlan) :
    e.slot.nodes.Perm (e.operators.map RankedOperator.operator) := by
  have hp := (sortBy_perm RankedOperator.rank e.operators).map Numbered.node
  rw [map_node_numbered] at hp
  simpa [Slot.nodes, EventPlan.slot, Function.comp_def] using hp.map RankedOperator.operator

theorem Sound.inOrder (h : w.Sound) (he : e ∈ w.plan.events)
    (hfirst : e.operators.Pairwise fun a b => ¬ b.operator.Feeds a.operator) :
    InOrder e.slot.nodes := by
  have ho := h.events e he
  have hperm := nodes_slot_perm e
  have hbits : (e.operators.map RankedOperator.operator).Pairwise Operator.BitsApart :=
    List.pairwise_map.2 ho.bits
  refine ⟨(h.laid he).perm hperm.symm, hbits.perm hperm.symm fun k i ha hb => k i hb ha, ?_, ?_⟩
  · rw [Slot.nodes, List.pairwise_map]
    refine (pairwise_sortBy RankedOperator.rank e.operators).imp_of_mem fun {m n} hm hn hmn hp => ?_
    have hlt := h.rank_lt he hfirst _ (mem_of_mem_sortBy hn) _
      (mem_of_mem_sortBy hm) hp
    rcases hmn with hmn | hmn <;> omega
  · intro a ha
    obtain ⟨o, ho', rfl⟩ := List.mem_map.1 (hperm.subset ha)
    exact ho.selfless o ho'

end Workbench

theorem InOrder.settled {s : Slot} (h : InOrder s.nodes) (f : Frame)
    {before behind : List (Numbered RankedOperator)} {n : Numbered RankedOperator}
    (hs : s.operators = before ++ n :: behind) :
    Frame.AgreeOn n.node.operator.sees (Slot.mapOperators Operator.step before f).2
      (Slot.mapOperators Operator.step s.operators f).2 := by
  rw [hs, Slot.mapOperators_append]
  refine Slot.mapOperators_step_frame (fun m hm => ?_) _
  rw [Slot.nodes, hs, List.map_append, List.map_cons] at h
  refine h.sees_beyond m.node.operator ?_
  rcases List.mem_cons.1 hm with rfl | hm
  · exact List.mem_cons_self
  · exact List.mem_cons_of_mem _ (List.mem_map.2 ⟨m, hm, rfl⟩)

theorem Plan.slots_build {p : Plan} {event : Nat} {e : EventPlan} (he : p.events[event]? = some e)
    (volume : Volume) : (p.build volume).slots[event]? = some e.slot := by
  rw [build, List.getElem?_map, he]
  rfl

namespace Plan

/-- The nodes of all events were added in running order. -/
def InTurn (p : Plan) : Prop := ∀ e ∈ p.events,
  (e.sources.Pairwise fun a b => a.moduleIndex ≤ b.moduleIndex) ∧
    e.operators.Pairwise fun a b => a.rank ≤ b.rank

instance (p : Plan) : Decidable p.InTurn :=
  inferInstanceAs (Decidable (∀ e ∈ p.events, _ ∧ _))

/-- The graph of a plan with all nodes as they were added. Nothing has to be sorted, so it can be
run by computation. -/
def buildInTurn (p : Plan) (volume : Volume) : Graph :=
  { p.build volume with
    slots := p.events.map fun e =>
      ⟨numbered e.sources, numbered e.operators, ConditionBits.new e.bitCount⟩ }

theorem build_of_inTurn {p : Plan} (h : p.InTurn) (volume : Volume) :
    p.build volume = p.buildInTurn volume := by
  have hslots : p.events.map EventPlan.slot = p.events.map fun e =>
      ⟨numbered e.sources, numbered e.operators, ConditionBits.new e.bitCount⟩ :=
    List.map_congr_left fun e he => by
      rw [EventPlan.slot, sortBy_of_pairwise (h e he).1, sortBy_of_pairwise (h e he).2]
  rw [buildInTurn, build, hslots]

end Plan

open Workbench in
/-- Whatever calls made a plan: if the operators of an event were added behind those that feed
them, they have their ranks, and run, in the order of their dependencies. -/
theorem runningOrder_after (capacity : Nat) (strategy : FillStrategy) (calls : List BuildCall)
    (volume : Volume) (event : Nat) (e : EventPlan) (slot : Slot)
    (he : (after capacity strategy calls).plan.events[event]? = some e)
    (hs : ((after capacity strategy calls).plan.build volume).slots[event]? = some slot)
    (hfirst : e.operators.Pairwise fun a b => ¬ b.operator.Feeds a.operator) :
    RunningOrder e slot := by
  have hsound := sound_after capacity strategy calls
  have hmem := List.mem_of_getElem? he
  have hrank := hsound.rank_lt hmem hfirst
  have hin := hsound.inOrder hmem hfirst
  obtain rfl : e.slot = slot := Option.some.inj ((Plan.slots_build he volume).symm.trans hs)
  refine ⟨hrank, sortBy_perm _ _, pairwise_sortBy _ _, ?_, ?_⟩
  · intro before n behind hsplit m hm hp
    rw [Slot.nodes, hsplit, List.map_append, List.map_cons] at hin
    have hn : n ∈ e.slot.operators := hsplit ▸ List.mem_append_right _ List.mem_cons_self
    rw [hsplit] at hm
    rcases List.mem_append.1 hm with hb | hb
    · exact hb
    · rcases List.mem_cons.1 hb with rfl | hb
      · have hlt := hrank _ (mem_of_mem_sortBy hn) _ (mem_of_mem_sortBy hn) hp
        exact absurd hlt (Nat.lt_irrefl _)
      · have hnot := List.rel_of_pairwise_cons (List.pairwise_append.1 hin.order).2.1
          (List.mem_map_of_mem hb)
        exact absurd hp hnot
  · intro s f hr before n behind hsplit
    have hagree := (hin.of_resting hr).settled f hsplit
    refine ⟨List.map_congr_left fun v hv => hagree.store.values_eq fun i hi => ?_, ?_⟩
    · exact ⟨v.data, List.mem_flatMap.2 ⟨v, hv, v.data_mem_spans⟩, hi⟩
    · cases hg : n.node.operator.gate with
      | none => simp [Operator.isOpen, hg]
      | some bit => simp [Operator.isOpen, hg, hagree.bits bit hg]

/-- A filter, conditions on its elements, and a filter of one element that they gate. -/
def filterChain : List BuildCall :=
  let raw : Pipe := ⟨⟨0, 2⟩, ⟨4, 2⟩, ⟨8, 2⟩⟩
  let passed : Pipe := ⟨⟨12, 2⟩, ⟨16, 2⟩, ⟨20, 2⟩⟩
  let second : Pipe := ⟨⟨13, 1⟩, ⟨17, 1⟩, ⟨21, 1⟩⟩
  [.pushPipe 2 .zero .zero, .makeOperator (.rangeFilter raw .unbounded false),
    .addOperator 0 0 none, .makeOperator (.intervalCondition passed [.unbounded, .unbounded]),
    .addOperator 0 0 none, .makeOperator (.rangeFilter second .unbounded true),
    .addOperator 0 0 (some 1)]

open Workbench in
theorem runningOrder_filterChain :
    ∃ e slot, (after 4096 .direct filterChain).plan.events[0]? = some e ∧
      e.operators.map RankedOperator.rank = [1, 2, 3] ∧ RunningOrder e slot := by
  have he := List.getElem?_eq_getElem
    (show 0 < (after 4096 .direct filterChain).plan.events.length by decide +kernel)
  exact ⟨_, _, he, by decide +kernel, runningOrder_after 4096 .direct filterChain .fresh 0 _ _ he
    (Plan.slots_build he .fresh) (by decide +kernel)⟩

end Readout
