import Mathlib.Data.List.Induction
import Mathlib.Logic.Relation
import Readout.Proofs.Graph.Gating

/-!
# Bit ranges

The conditions of an event share its bits. Each takes the next free ones when it is added, so the
ranges follow each other without a gap, in the order of the conditions, and a gate can only name a
bit of a condition that is there already. Neither the order in which the operators run nor a run
changes a range, and a condition that computes writes its own range only.
-/
namespace Readout

/-- The ranges follow each other from the first bound to the last one, and none is empty. -/
inductive Tiles : Nat → List (Nat × Nat) → Nat → Prop
  | nil (i : Nat) : Tiles i [] i
  | cons {i j k : Nat} {rs : List (Nat × Nat)} : i < j → Tiles j rs k → Tiles i ((i, j) :: rs) k

namespace Tiles

variable {i j k bit : Nat} {rs : List (Nat × Nat)}

theorem le (h : Tiles i rs k) : i ≤ k := by
  induction h with
  | nil i => exact le_rfl
  | cons hlt _ ih => exact hlt.le.trans ih

theorem concat (h : Tiles i rs j) (hlt : j < k) : Tiles i (rs ++ [(j, k)]) k := by
  induction h with
  | nil j => exact .cons hlt (.nil k)
  | cons hfirst _ ih => exact .cons hfirst (ih hlt)

theorem covered (h : Tiles i rs k) (bit : Nat) :
    (∃ r ∈ rs, r.1 ≤ bit ∧ bit < r.2) ↔ i ≤ bit ∧ bit < k := by
  induction h with
  | nil i => simp
  | @cons i j k rs hlt hrest ih =>
    have hle := hrest.le
    simp only [List.mem_cons, exists_eq_or_imp, ih]
    omega

theorem apart (h : Tiles i rs k) : rs.Pairwise fun r t => r.2 ≤ t.1 := by
  have hstart : ∀ {i k rs}, Tiles i rs k → ∀ r ∈ rs, i ≤ r.1 := by
    intro i k rs h
    induction h with
    | nil i => simp
    | cons hlt _ ih => simpa using fun r t hr => hlt.le.trans (ih (r, t) hr)
  induction h with
  | nil i => exact .nil
  | cons _ hrest ih => exact List.pairwise_cons.2 ⟨hstart hrest, ih⟩

end Tiles

namespace RankedOperator

def range? (o : RankedOperator) : Option (Nat × Nat) := do
  let first ← o.operator.kind.firstBit?
  if o.operator.isCondition then some (first, first + o.operator.kind.bitCount) else none

@[simp] theorem range?_resting (o : RankedOperator) : o.resting.range? = o.range? := by
  simp [range?, resting, Operator.isCondition]

theorem mem_range?_iff {o : RankedOperator} {r : Nat × Nat} : r ∈ o.range? ↔
    o.operator.kind.firstBit? = some r.1 ∧ 0 < o.operator.kind.bitCount ∧
      r.2 = r.1 + o.operator.kind.bitCount := by
  rw [range?, Operator.isCondition]
  cases o.operator.kind.firstBit? with
  | none => simp
  | some first =>
    by_cases hc : 0 < o.operator.kind.bitCount <;>
      simp +contextual [hc, Prod.ext_iff, eq_comm (b := r.2)]

theorem exists_range_iff (o : RankedOperator) (bit : Nat) :
    (∃ r ∈ o.range?, r.1 ≤ bit ∧ bit < r.2) ↔ o.operator.OwnsBit bit := by
  constructor
  · rintro ⟨r, hr, hl, hu⟩
    obtain ⟨hf, -, hstop⟩ := mem_range?_iff.1 hr
    exact ⟨r.1, hf, hl, hstop ▸ hu⟩
  · rintro ⟨first, hf, hl, hu⟩
    exact ⟨(first, _), mem_range?_iff.2 ⟨hf, by omega, rfl⟩, hl, hu⟩

def bitsOf (os : List RankedOperator) : Nat := total (os.map fun o => o.operator.kind.bitCount)

/-- The operator stands behind the others: its bits are the next ones, its gate is a bit of theirs. -/
structure Follows (before : List RankedOperator) (o : RankedOperator) : Prop where
  range : o.range? = if o.operator.isCondition then
    some (bitsOf before, bitsOf before + o.operator.kind.bitCount) else none
  gate : ∀ bit ∈ o.operator.gate, bit < bitsOf before

end RankedOperator

namespace EventPlan

open RankedOperator

variable {e e' : EventPlan}

def ranges (e : EventPlan) : List (Nat × Nat) := e.operators.filterMap RankedOperator.range?

/-- Each operator stands behind those that were added before it. -/
def Lined (e : EventPlan) : Prop :=
  ∀ before o behind, e.operators = before ++ o :: behind → o.Follows before

theorem bitCount_eq (e : EventPlan) : e.bitCount = bitsOf e.operators := by
  rw [bitCount, bitRanks, bitsOf]
  induction e.operators with
  | nil => rfl
  | cons o os ih => simp [total, ih]

theorem lined_empty : empty.Lined := fun before o behind h => by simp [empty] at h

theorem Lined.addSource {s : Source} (he : e.Lined) (h : e.addSource s = .ok e') : e'.Lined := by
  rw [addSource_eq_ok h]
  exact he

theorem Lined.addOperator {op : Operator} (he : e.Lined) (h : e.addOperator op = .ok e') :
    e'.Lined := by
  obtain ⟨rank, hr, rfl⟩ := addOperator_eq_ok h
  refine forall_split_concat he ⟨?_, fun bit hg => ?_⟩
  · rw [range?, Operator.isCondition, Kind.bitCount_withFirstBit, ← bitCount_eq]
    by_cases hpos : 0 < op.kind.bitCount
    · simp [Kind.firstBit?_withFirstBit hpos, hpos]
    · cases (op.kind.withFirstBit e.bitCount).firstBit? <;> simp [hpos]
  · rw [← bitCount_eq]
    exact gate_lt hr hg

theorem Lined.tiles (he : e.Lined) : Tiles 0 e.ranges e.bitCount := by
  obtain ⟨sources, os⟩ := e
  rw [ranges, bitCount_eq]
  -- the last operator takes the bits behind those that the others tile
  induction os using List.reverseRecOn with
  | nil => exact .nil 0
  | append_singleton os o ih =>
    have hfront : (EventPlan.mk sources os).Lined := fun before x behind hsplit =>
      he before x (behind ++ [o]) (by simpa using congrArg (· ++ [o]) hsplit)
    have htiles := ih hfront
    have hlast := (he os o [] rfl).range
    have hcount : bitsOf (os ++ [o]) = bitsOf os + o.operator.kind.bitCount := by
      simp [bitsOf, total_append, total]
    rw [hcount, List.filterMap_append]
    by_cases hpos : 0 < o.operator.kind.bitCount
    · simpa [hlast, Operator.isCondition, hpos] using
        htiles.concat (Nat.lt_add_of_pos_right hpos)
    · have hzero : o.operator.kind.bitCount = 0 := by omega
      simpa [hlast, Operator.isCondition, hzero] using htiles

theorem Lined.owner_before (he : e.Lined) {before behind : List RankedOperator}
    {o : RankedOperator} (hsplit : e.operators = before ++ o :: behind) {bit : Nat}
    (hg : bit ∈ o.operator.gate) : ∃ m ∈ before, m.operator.OwnsBit bit := by
  have hfront : (EventPlan.mk e.sources before).Lined := fun front x back hsplit' =>
    he front x (back ++ o :: behind) (by simpa [hsplit] using congrArg (· ++ o :: behind) hsplit')
  have hlt := (he before o behind hsplit).gate bit hg
  rw [← (EventPlan.mk e.sources before).bitCount_eq] at hlt
  obtain ⟨r, hr, hin⟩ := (hfront.tiles.covered bit).2 ⟨Nat.zero_le bit, hlt⟩
  obtain ⟨m, hm, hrange⟩ := List.mem_filterMap.1 hr
  exact ⟨m, hm, (m.exists_range_iff bit).1 ⟨r, hrange, hin⟩⟩

/-- Among the operators of the event, the first one gates the second one. -/
def GatesIn (e : EventPlan) (a b : RankedOperator) : Prop :=
  a ∈ e.operators ∧ b ∈ e.operators ∧ a.operator.Gates b.operator

/-- A gate stands above its condition, so no chain of gates leads back. -/
theorem Ordered.acyclic (he : e.Ordered) (o : RankedOperator) :
    ¬ Relation.TransGen e.GatesIn o o := by
  have hrank : ∀ {a b}, Relation.TransGen e.GatesIn a b → a.rank < b.rank := by
    intro a b h
    induction h with
    | single hab => exact he.lt_of_gates hab.1 hab.2.1 hab.2.2
    | tail _ hbc ih => exact ih.trans (he.lt_of_gates hbc.1 hbc.2.1 hbc.2.2)
  exact fun h => lt_irrefl _ (hrank h)

end EventPlan

namespace Workbench

variable {α : Type}

theorem events_alloc (w : Workbench) (x : Alloc α) {k : Workbench → α → Workbench}
    (hk : ∀ w v, (k w v).plan = w.plan) : (w.alloc x k).plan.events = w.plan.events := by
  rw [alloc]
  rcases x w.plan.arena with ⟨c | v, a⟩
  · rfl
  · simp only [hk]

/-- A call leaves the events as they are, or adds one node to one of them. -/
theorem exists_event {w : Workbench} {c : BuildCall} {e' : EventPlan}
    (he : e' ∈ (w.apply c).plan.events) : ∃ e ∈ w.plan.events,
      e' = e ∨ (∃ s, e.addSource s = .ok e') ∨ ∃ op, e.addOperator op = .ok e' := by
  have hsame : (w.apply c).plan.events = w.plan.events → ∃ e ∈ w.plan.events,
      e' = e ∨ (∃ s, e.addSource s = .ok e') ∨ ∃ op, e.addOperator op = .ok e' :=
    fun h => ⟨e', h ▸ he, .inl rfl⟩
  cases c with
  | pushPipe length lower upper => exact hsame (w.events_alloc _ fun _ _ => rfl)
  | reserve size align => exact hsame (w.events_alloc _ fun _ _ => rfl)
  | assign p vs => exact hsame (w.events_alloc _ fun _ _ => rfl)
  | makeSource r => exact hsame (w.events_alloc _ fun _ _ => rfl)
  | makeOperator r =>
    refine hsame ?_
    rw [apply]
    split
    · exact w.events_alloc _ fun _ _ => rfl
    · rfl
  | addSource event position =>
    obtain h | ⟨s, e, f, hget, hadd, h⟩ := w.plan_addSource event position
    · exact hsame (congrArg Plan.events h)
    · rw [h] at he
      rcases List.mem_or_eq_of_mem_set he with he | rfl
      · exact ⟨e', he, .inl rfl⟩
      · exact ⟨e, List.mem_of_getElem? hget, .inr (.inl ⟨s, hadd⟩)⟩
  | addOperator event position gate =>
    obtain h | ⟨op, e, f, hget, hadd, h⟩ := w.plan_addOperator event position gate
    · exact hsame (congrArg Plan.events h)
    · rw [h] at he
      rcases List.mem_or_eq_of_mem_set he with he | rfl
      · exact ⟨e', he, .inl rfl⟩
      · exact ⟨e, List.mem_of_getElem? hget, .inr (.inr ⟨op, hadd⟩)⟩

/-- What holds of an empty event and is kept when a node is added holds of all events. -/
theorem forall_event_after {P : EventPlan → Prop} (hempty : P .empty)
    (hsource : ∀ {e e' s}, P e → e.addSource s = .ok e' → P e')
    (hoperator : ∀ {e e' op}, P e → e.addOperator op = .ok e' → P e') (capacity : Nat)
    (strategy : FillStrategy) (calls : List BuildCall) :
    ∀ e ∈ (after capacity strategy calls).plan.events, P e := by
  refine after_induction (Q := fun w => ∀ e ∈ w.plan.events, P e)
    (fun e he => List.eq_of_mem_replicate he ▸ hempty) (fun w c h e' he' => ?_) calls
  obtain ⟨e, he, rfl | ⟨s, hadd⟩ | ⟨op, hadd⟩⟩ := exists_event he'
  · exact h e' he
  · exact hsource (h e he) hadd
  · exact hoperator (h e he) hadd

end Workbench

namespace Slot

variable {s : Slot} {e : EventPlan} {g : Graph}

/-- The operators of a slot are those of its event, whatever their order and their runs so far. -/
theorem exists_planned (h : s.resting = e.slot.resting) {n : Numbered RankedOperator}
    (hn : n ∈ s.operators) : ∃ o, e.operators[n.index]? = some o ∧ n.node.resting = o.resting := by
  have hmem : n.map RankedOperator.resting ∈ e.slot.resting.operators :=
    h ▸ List.mem_map_of_mem hn
  obtain ⟨m, hm, hmn⟩ := List.mem_map.1 hmem
  have hget := getElem?_of_mem_numbered ((sortBy_perm RankedOperator.rank e.operators).subset hm)
  obtain ⟨hindex, hnode⟩ := Numbered.mk.inj hmn
  exact ⟨m.node, hindex ▸ hget, hnode.symm⟩

theorem indices_perm (h : s.resting = e.slot.resting) :
    (s.operators.map Numbered.index).Perm (List.range e.operators.length) := by
  have hsame : s.operators.map Numbered.index = e.slot.operators.map Numbered.index := by
    have hoperators := congrArg (·.operators.map Numbered.index) h
    simpa [resting, Numbered.map, Function.comp_def] using hoperators
  rw [hsame, ← map_index_numbered]
  exact (sortBy_perm RankedOperator.rank e.operators).map Numbered.index

/-- Each operator of a slot keeps the range that its event has for it, and its step writes that
range if it computes, and nothing else. -/
structure Writes (e : EventPlan) (g : Graph) (s : Slot) : Prop where
  length : s.bits.length = e.bitCount
  places : (s.operators.map Numbered.index).Perm (List.range e.operators.length)
  kept : ∀ n ∈ s.operators, ∃ o, e.operators[n.index]? = some o ∧ n.node.range? = o.range?
  /-- A bit is written whatever it was, and stays until the event has ended. -/
  written : ∀ before n behind, s.operators = before ++ n :: behind →
    n.node.operator.isOpen (passed before (g.frame s)).bits = true →
      ∀ r ∈ n.node.range?, ∀ bit, r.1 ≤ bit → bit < r.2 →
        ((n.node.operator.step (passed before (g.frame s))).2.bits.test bit = true ↔
          n.node.operator.kind.Passes
            (n.node.operator.inputValues (passed before (g.frame s))) (bit - r.1)) ∧
        (Graph.endEventSlot g s).2.bits.test bit =
          (n.node.operator.step (passed before (g.frame s))).2.bits.test bit
  spared : ∀ before n behind, s.operators = before ++ n :: behind → ∀ bit,
    n.node.operator.isOpen (passed before (g.frame s)).bits = false ∨
        (∀ r ∈ n.node.range?, ¬ (r.1 ≤ bit ∧ bit < r.2)) →
      (n.node.operator.step (passed before (g.frame s))).2.bits.test bit =
        (passed before (g.frame s)).bits.test bit

theorem bits_length (h : s.resting = e.slot.resting) : s.bits.length = e.bitCount := by
  have hclear : s.bits.clear.length = e.slot.bits.clear.length := congrArg (·.bits.length) h
  rw [s.bits.length_clear, e.slot.bits.length_clear] at hclear
  exact hclear.trans List.length_replicate

theorem Guarded.writes (h : s.Guarded) (hs : s.resting = e.slot.resting) (g : Graph) :
    s.Writes e g where
  length := bits_length hs
  places := indices_perm hs
  kept n hn := by
    obtain ⟨o, ho, hresting⟩ := exists_planned hs hn
    exact ⟨o, ho, by rw [← n.node.range?_resting, hresting, o.range?_resting]⟩
  written before n behind hsplit hopen r hr bit hl hu := by
    have hown := (n.node.exists_range_iff bit).1 ⟨r, hr, hl, hu⟩
    have hothers := h.bit_beyond hsplit hown
    have hmem := operator_mem hsplit
    obtain ⟨hf, -, hstop⟩ := RankedOperator.mem_range?_iff.1 hr
    have hlength : s.bits.length = (passed before (g.frame s)).bits.length :=
      (mapOperators_step_frame (fun m hm => hothers m (List.mem_append_left _ hm))
        (g.frame s)).length_eq
    refine ⟨?_, ((Graph.agree_behind hsplit hothers fun _ _ _ _ => id).bits bit rfl).symm⟩
    rw [Operator.step, if_pos hopen]
    exact Operator.test_compute (h.laid.shaped _ hmem) hf hl (hstop ▸ hu)
      (hlength ▸ h.held _ hmem bit hown)
  spared before n behind hsplit bit hspared := by
    rcases hspared with hclosed | hrange
    · rw [Operator.step_closed hclosed]
      rfl
    · refine Operator.test_step (fun hown => ?_) _
      obtain ⟨r, hr, hin⟩ := (n.node.exists_range_iff bit).2 hown
      exact hrange r hr hin

end Slot

structure EventPlan.Dealt (e : EventPlan) : Prop where
  tiles : Tiles 0 e.ranges e.bitCount
  apart : e.ranges.Pairwise fun r t => r.2 ≤ t.1
  covered : ∀ bit, (∃ r ∈ e.ranges, r.1 ≤ bit ∧ bit < r.2) ↔ bit < e.bitCount
  range : ∀ before o behind, e.operators = before ++ o :: behind → o.range? =
    if o.operator.isCondition then
      some (RankedOperator.bitsOf before,
        RankedOperator.bitsOf before + o.operator.kind.bitCount) else none
  first : ∀ before o behind, e.operators = before ++ o :: behind → o.operator.isCondition = true →
    o.operator.kind.firstBit? = some (RankedOperator.bitsOf before)
  ranked : ∀ o ∈ e.operators, ∀ r ∈ o.range?, ∀ bit, r.1 ≤ bit → bit < r.2 →
    e.bitRanks[bit]? = some o.rank
  gate : ∀ before o behind, e.operators = before ++ o :: behind → ∀ bit ∈ o.operator.gate,
    ∃ m ∈ before, ∃ r ∈ m.range?, r.1 ≤ bit ∧ bit < r.2
  acyclic : ∀ o, ¬ Relation.TransGen e.GatesIn o o

theorem EventPlan.Lined.dealt {e : EventPlan} (he : e.Lined) (ho : e.Ordered) : e.Dealt where
  tiles := he.tiles
  apart := he.tiles.apart
  covered bit := by simpa using he.tiles.covered bit
  range before o behind hsplit := (he before o behind hsplit).range
  first before o behind hsplit hc := by
    have hrange := (he before o behind hsplit).range
    rw [if_pos hc] at hrange
    exact (RankedOperator.mem_range?_iff.1 hrange).1
  ranked o hm r hr bit hl hu :=
    ho.owners o hm bit ((o.exists_range_iff bit).1 ⟨r, hr, hl, hu⟩)
  gate before o behind hsplit bit hg := by
    obtain ⟨m, hm, hown⟩ := he.owner_before hsplit hg
    exact ⟨m, hm, (m.exists_range_iff bit).2 hown⟩
  acyclic := ho.acyclic

namespace Graph

open Workbench

/-- The bits of an event are dealt out to its conditions in the order in which these were added,
none twice and none left over, for whatever was added to the event, refused calls included. In
every event of every run a condition that computes writes its own bits, all of them and no other. -/
theorem bits_dealt (capacity : Nat) (strategy : FillStrategy) (calls : List BuildCall)
    (volume : Volume) (runs : List RunCall) (event : Nat) (e : EventPlan) (s : Slot)
    (he : (after capacity strategy calls).plan.events[event]? = some e)
    (hs : (runs.foldl RunCall.apply
      ((after capacity strategy calls).plan.build volume)).slots[event]? = some s) :
    e.Dealt ∧
      (∀ h : Handle, h.event = event →
        (after capacity strategy calls).plan.bits? h =
          e.operators[h.index]?.bind RankedOperator.range?) ∧
      s.Writes e (runs.foldl RunCall.apply
        ((after capacity strategy calls).plan.build volume)) := by
  have hsound := sound_after capacity strategy calls
  have hmem := List.mem_of_getElem? he
  have hlined := forall_event_after EventPlan.lined_empty EventPlan.Lined.addSource
    EventPlan.Lined.addOperator capacity strategy calls e hmem
  obtain ⟨t, ht, hst⟩ := slot_resting_run hs
  obtain rfl : e.slot = t := Option.some.inj ((Plan.slots_build he volume).symm.trans ht)
  refine ⟨hlined.dealt (hsound.events e hmem), fun h hevent => ?_,
    ((hsound.guarded hmem).of_resting hst).writes hst _⟩
  simp only [Plan.bits?, Plan.operator?, hevent, he, Option.bind_eq_bind, Option.bind_some]
  rfl

theorem bits_dealt_gatedChain :
    let runs := [RunCall.beginRun, .during (.beginEvent 0), .during (.endEvent 0)]
    ∃ (e : EventPlan) (s : Slot), (after 4096 .batched gatedChain).plan.events[0]? = some e ∧
      e.ranges = [(0, 2), (2, 4)] ∧ e.Dealt ∧
      s.Writes e (runs.foldl RunCall.apply
        ((after 4096 .batched gatedChain).plan.build .fresh)) := by
  intro runs
  have he := List.getElem?_eq_getElem
    (show 0 < (after 4096 .batched gatedChain).plan.events.length by decide +kernel)
  have hs := List.getElem?_eq_getElem (show 0 < (runs.foldl RunCall.apply
    ((after 4096 .batched gatedChain).plan.build .fresh)).slots.length by decide +kernel)
  obtain ⟨hdealt, -, hwrites⟩ :=
    bits_dealt 4096 .batched gatedChain .fresh runs 0 _ _ he hs
  exact ⟨_, _, he, by decide +kernel, hdealt, hwrites⟩

end Graph

end Readout
