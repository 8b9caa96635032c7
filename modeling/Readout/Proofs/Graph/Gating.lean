import Readout.Proofs.Graph.Reach

/-!
# Gating

A gate bit is written by one condition, which steps in front of all operators that the bit gates.
When an event begins all bits are cleared, and a condition whose own gate is closed writes none. So
a gate is open exactly if the condition computed in this event and found its test to hold, and an
operator whose gate is closed leaves nothing behind but invalid outputs.
-/
namespace Readout

/-- The test of a condition on its inputs, for the element that one of its bits stands for. -/
def Kind.Passes (ins : List (List Value)) (element : Nat) : Kind → Prop
  | .intervalCondition intervals _ =>
    ∃ w ∈ intervals[element]?, ∃ v ∈ (ins.headD [])[element]?, w.admits v = true
  | .rectangleCondition x y _ =>
    ∃ a b, ins = [[a], [b]] ∧ x.admits a = true ∧ y.admits b = true
  | .polygonCondition polygon _ =>
    ∃ a b, ins = [[a], [b]] ∧ a.isValid = true ∧ b.isValid = true ∧
      Polygon.contains a b polygon = true
  | _ => False

theorem Frame.test_setBits (f : Frame) {first bit : Nat} {bs : List Bool} (hl : first ≤ bit)
    (hu : bit < first + bs.length) (hb : bit < f.bits.length) :
    (f.setBits first bs).bits.test bit = bs.getD (bit - first) false := by
  have hbelow : ∀ (bs : List Bool) (first : Nat) (f : Frame), bit < first →
      (f.setBits first bs).bits.test bit = f.bits.test bit := by
    intro bs
    induction bs with
    | nil => exact fun _ _ _ => rfl
    | cons b bs ih =>
      intro first f hlt
      rw [setBits, ih _ _ (by omega), Change.test_set, if_neg (by omega)]
  induction bs generalizing f first with
  | nil => exact absurd hu (by simp only [List.length_nil]; omega)
  | cons b bs ih =>
    rw [setBits]
    rcases Nat.eq_or_lt_of_le hl with rfl | hlt
    · rw [hbelow bs _ _ (Nat.lt_succ_self _), f.bits.test_set _ _ _ hb, if_pos rfl, Nat.sub_self]
      rfl
    · have hsucc : bit - first = bit - (first + 1) + 1 := by omega
      rw [List.length_cons] at hu
      rw [ih _ hlt (by omega) (by rw [ConditionBits.length_set]; exact hb), hsucc]
      rfl

namespace Operator

variable {op : Operator} {f : Frame} {first bit : Nat}

/-- A condition that computes sets each of its bits to the outcome of the test that it stands
for. -/
theorem test_compute (hs : op.Shaped) (hf : op.kind.firstBit? = some first) (hl : first ≤ bit)
    (hu : bit < first + op.kind.bitCount) (hb : bit < f.bits.length) :
    (op.compute f).2.bits.test bit = true ↔
      op.kind.Passes (op.inputValues f) (bit - first) := by
  obtain ⟨inputs, outputs, gate, kind⟩ := op
  cases kind with
  | intervalCondition intervals lowest =>
    obtain ⟨i, hi, -, hlen⟩ := hs
    obtain rfl : lowest = first := Option.some.inj hf
    simp only at hi
    subst hi
    have hvalues : (f.store.values i.data).length = intervals.length :=
      (f.store.length_values i.data).trans hlen.symm
    simp only [compute, inputValues, List.map_cons, List.map_nil, List.headD_cons, Frame.values,
      Kind.Passes, Kind.bitCount] at hu ⊢
    have hw : bit - lowest < intervals.length := by omega
    have hv : bit - lowest < (f.store.values i.data).length := by omega
    rw [f.test_setBits hl (by rw [List.length_zipWith, hvalues]; omega) hb,
      List.getD_eq_getElem?_getD, List.getElem?_zipWith, List.getElem?_eq_getElem hw,
      List.getElem?_eq_getElem hv]
    simp
  | rectangleCondition x y lowest =>
    obtain ⟨p, q, hi, -, hp, hq⟩ := hs
    obtain rfl : lowest = first := Option.some.inj hf
    simp only at hi
    subst hi
    obtain rfl : bit = lowest := by simp only [Kind.bitCount] at hu; omega
    simp only [compute, inputValues, List.map_cons, List.map_nil, Frame.values,
      f.store.values_of_length_one hp, f.store.values_of_length_one hq, pairOf?, Kind.Passes]
    rw [f.test_setBits hl (by simp) hb, Nat.sub_self]
    simp [Kind.inRectangle]
  | polygonCondition polygon lowest =>
    obtain ⟨p, q, hi, -, hp, hq, -⟩ := hs
    obtain rfl : lowest = first := Option.some.inj hf
    simp only at hi
    subst hi
    obtain rfl : bit = lowest := by simp only [Kind.bitCount] at hu; omega
    simp only [compute, inputValues, List.map_cons, List.map_nil, Frame.values,
      f.store.values_of_length_one hp, f.store.values_of_length_one hq, pairOf?, Kind.Passes]
    rw [f.test_setBits hl (by simp) hb, Nat.sub_self]
    simp [Kind.inPolygon, and_assoc]
  | _ => cases hf

theorem beyond_bit {op : Operator} {bit : Nat} (h : ¬ op.OwnsBit bit) :
    Region.Beyond ⟨fun _ => False, (· = bit), fun _ => False⟩ op :=
  ⟨fun _ _ _ _ => id, fun _ hi hib => h (hib ▸ hi), fun _ _ => id⟩

theorem test_step {op : Operator} {bit : Nat} (h : ¬ op.OwnsBit bit) (f : Frame) :
    (op.step f).2.bits.test bit = f.bits.test bit :=
  ((step_frame (beyond_bit h) f).bits bit rfl).symm

end Operator

theorem Frame.invalid_of_invalidate (f : Frame) {outputs : List Pipe} {p : Pipe}
    (hp : p ∈ outputs) (hs : p.data.stop ≤ f.store.slots) {i : Nat} (hi : i < p.length) :
    ((f.invalidate outputs).store.get p.data i).isValid = false := by
  have hmem : p.data.offset + i ∈ p.data := ⟨Nat.le_add_right _ _, Nat.add_lt_add_left hi _⟩
  have hkept : ∀ (ps : List Pipe) (s : Store), s.slots = f.store.slots →
      (s.get p.data i = Value.invalid ∨ p ∈ ps) →
        (ps.foldl (fun st q => st.invalidate q.data) s).get p.data i = Value.invalid := by
    intro ps
    induction ps with
    | nil => exact fun s _ h => h.resolve_right (by simp)
    | cons q ps ih =>
      intro s hs' h
      refine ih _ ((s.slots_fill q.data _).trans hs') ?_
      rcases h with h | h
      · left
        change (Store.fillFrom _ s q.data.offset q.data.length).read _ = _
        rw [Store.read_fillFrom]
        split
        · rfl
        · exact h
      · rcases List.mem_cons.1 h with rfl | h
        · exact Or.inl (s.get_fill _ hi (by rw [hs']; exact hs))
        · exact Or.inr h
  have hval : (f.invalidate outputs).store.get p.data i = Value.invalid :=
    hkept outputs f.store rfl (Or.inr hp)
  rw [hval]
  rfl

/-- Each bit that gates an operator of a slot belongs to one operator, which stands in front. -/
structure Slot.Guarded (s : Slot) : Prop where
  laid : Laid s.nodes
  bits : s.nodes.Pairwise Operator.BitsApart
  gates : s.nodes.Pairwise fun a b => ¬ b.Gates a
  selfless : ∀ a ∈ s.nodes, ¬ a.Gates a
  owner : ∀ a ∈ s.nodes, ∀ bit ∈ a.gate, ∃ m ∈ s.nodes, m.OwnsBit bit
  held : ∀ a ∈ s.nodes, ∀ bit, a.OwnsBit bit → bit < s.bits.length

namespace Slot.Guarded

variable {s t : Slot}

theorem map_resting : s.resting.Guarded ↔ s.Guarded := by
  have howns : ∀ (a : Operator) (bit : Nat), a.resting.OwnsBit bit ↔ a.OwnsBit bit :=
    fun a bit => by simp [Operator.OwnsBit]
  have hbits : ∀ a b : Operator, a.resting.BitsApart b.resting ↔ a.BitsApart b := fun a b => by
    simp [Operator.BitsApart, howns]
  have hgates : ∀ a b : Operator, a.resting.Gates b.resting ↔ a.Gates b := fun a b => by
    simp [Operator.Gates, howns]
  have hlen : s.resting.bits.length = s.bits.length := s.bits.length_clear
  have howner : ∀ bit, (∃ m ∈ s.nodes.map Operator.resting, m.OwnsBit bit) ↔
      ∃ m ∈ s.nodes, m.OwnsBit bit := fun bit => by
    simp [howns]
  constructor
  · rintro ⟨hl, hb, hg, hs, ho, hh⟩
    rw [nodes_resting] at hl hb hg hs ho hh
    simp only [List.pairwise_map, List.forall_mem_map, hbits, hgates, howns, howner,
      Laid.map_resting, Operator.gate_resting, hlen] at hl hb hg hs ho hh
    exact ⟨hl, hb, hg, hs, ho, hh⟩
  · rintro ⟨hl, hb, hg, hs, ho, hh⟩
    constructor <;> rw [nodes_resting] <;> simpa only [List.pairwise_map, List.forall_mem_map,
      hbits, hgates, howns, howner, Laid.map_resting, Operator.gate_resting, hlen]

theorem of_resting (h : s.Guarded) (hr : t.resting = s.resting) : t.Guarded := by
  rw [← map_resting, hr, map_resting]
  exact h

end Slot.Guarded

open Workbench in
theorem Workbench.Sound.guarded {w : Workbench} {e : EventPlan} (h : w.Sound)
    (he : e ∈ w.plan.events) : e.slot.Guarded := by
  have ho := h.events e he
  have hperm := nodes_slot_perm e
  have hmem : ∀ {a : Operator}, a ∈ e.slot.nodes → ∃ o ∈ e.operators, o.operator = a :=
    fun ha => List.mem_map.1 (hperm.subset ha)
  have hin : ∀ {o : RankedOperator}, o ∈ e.operators → o.operator ∈ e.slot.nodes := fun hm =>
    hperm.symm.subset (List.mem_map_of_mem hm)
  have hbits : (e.operators.map RankedOperator.operator).Pairwise Operator.BitsApart :=
    List.pairwise_map.2 ho.bits
  refine ⟨(h.laid he).perm hperm.symm, hbits.perm hperm.symm fun k i ha hb => k i hb ha, ?_,
    fun a ha => ?_, fun a ha bit hg => ?_, fun a ha bit hown => ?_⟩
  · -- an operator of a lower rank stands in front
    rw [Slot.nodes, List.pairwise_map]
    refine (pairwise_sortBy RankedOperator.rank e.operators).imp_of_mem fun {m n} hm hn hmn hg => ?_
    have hlt := ho.lt_of_gates (mem_of_mem_sortBy hn) (mem_of_mem_sortBy hm) hg
    rcases hmn with hmn | hmn <;> omega
  · obtain ⟨o, hm, rfl⟩ := hmem ha
    exact ho.selfless o hm
  · obtain ⟨o, hm, rfl⟩ := hmem ha
    obtain ⟨k, hk, hown⟩ := ho.covered bit (ho.gated o hm bit hg)
    exact ⟨k.operator, hin hk, hown⟩
  · obtain ⟨o, hm, rfl⟩ := hmem ha
    have hlen : e.slot.bits.length = e.bitCount := List.length_replicate
    rw [hlen]
    exact ho.lt_bitCount hm hown

/-- The frame on which an operator behind the given ones steps. -/
def Slot.passed (ns : List (Numbered RankedOperator)) (f : Frame) : Frame :=
  (Slot.mapOperators Operator.step ns f).2

theorem Slot.length_mapOperators (φ : Operator → Frame → Operator × Frame)
    (ns : List (Numbered RankedOperator)) (f : Frame) :
    (Slot.mapOperators φ ns f).1.length = ns.length := by
  induction ns generalizing f with
  | nil => rfl
  | cons n ns ih => rw [mapOperators_cons, List.length_cons, List.length_cons, ih]

/-- What an operator leaves behind that does not compute while an event ends. -/
structure Idle (g : Graph) (s : Slot) (before : List (Numbered RankedOperator))
    (n : Numbered RankedOperator) (behind : List (Numbered RankedOperator)) : Prop where
  /-- Its counters, samplers and counts of events are the same. -/
  node : (Graph.endEventSlot g s).2.operators[before.length]? = some n
  outputs : ∀ p ∈ n.node.operator.outputs, ∀ i < p.length,
    ((Graph.endEventSlot g s).1.arena.store.get p.data i).isValid = false
  /-- What it remembers, and its bins, are the same. -/
  hidden : ∀ p ∈ n.node.operator.hidden, ∀ i ∈ p,
    (Graph.endEventSlot g s).1.arena.store.read i = g.arena.store.read i
  bits : ∀ bit, n.node.operator.OwnsBit bit →
    (Graph.endEventSlot g s).2.bits.test bit = s.bits.test bit
  /-- It queues no bin and writes to no file. -/
  step : ∃ store, n.node.operator.step (Slot.passed before (g.frame s)) =
    (n.node.operator, { Slot.passed before (g.frame s) with store := store })
  file : ∀ h ∈ n.node.operator.kind.handle?,
    (∀ m ∈ before ++ behind, ¬ m.node.operator.Opens h.place) →
      (Graph.endEventSlot g s).1.volume.find? h.place = g.volume.find? h.place

/-- What the other operators of a slot do not reach is not touched behind a step of an operator that
queues nothing of it. -/
theorem Graph.agree_behind {R : Region} {s : Slot} {g : Graph}
    {before behind : List (Numbered RankedOperator)} {n : Numbered RankedOperator}
    (hsplit : s.operators = before ++ n :: behind)
    (hR : ∀ m ∈ before ++ behind, R.Beyond m.node.operator)
    (hown : (n.node.operator.step (Slot.passed before (g.frame s))).2.filler.Within
      fun i => ¬ R.slots i) :
    (n.node.operator.step (Slot.passed before (g.frame s))).2.AgreeOn R
      ((Graph.endEventSlot g s).1.frame (Graph.endEventSlot g s).2) := by
  let after := (n.node.operator.step (Slot.passed before (g.frame s))).2
  have hback : after.AgreeOn R (Slot.passed behind after) :=
    Slot.mapOperators_step_frame (fun m hm => hR m (List.mem_append_right _ hm)) after
  -- what is queued while the event ends lies outside of the region
  have hqueue : (Slot.passed behind after).filler.Within fun i => ¬ R.slots i :=
    Slot.within_mapOperators (fun m hm =>
      Slot.mapOperators_bins_outside hR m (List.mem_append_right _ hm)) hown
  have hflush := Filler.flush_frame hqueue (P := R.slots) (fun _ hi hn => hn hi)
    (Slot.passed behind after).store
  have hend : Slot.mapOperators Operator.step s.operators (g.frame s) =
      ((Slot.mapOperators Operator.step before (g.frame s)).1 ++
        ⟨n.index, ⟨(n.node.operator.step (Slot.passed before (g.frame s))).1, n.node.rank⟩⟩ ::
          (Slot.mapOperators Operator.step behind after).1, Slot.passed behind after) := by
    rw [hsplit, Slot.mapOperators_append, Slot.mapOperators_cons]
    rfl
  rw [Graph.endEventSlot, hend]
  exact ⟨hback.store.trans hflush, hback.length_eq, hback.bits, hback.volume⟩

namespace Slot.Guarded

variable {s : Slot} {g : Graph} {before behind : List (Numbered RankedOperator)}
  {n : Numbered RankedOperator}

theorem bits_apart (h : s.Guarded) (hsplit : s.operators = before ++ n :: behind) :
    ∀ m ∈ before ++ behind, m.node.operator.BitsApart n.node.operator := by
  have hbits := h.bits
  rw [Slot.nodes, hsplit, List.map_append, List.map_cons] at hbits
  obtain ⟨-, hrest, hcross⟩ := List.pairwise_append.1 hbits
  intro m hm
  rcases List.mem_append.1 hm with hm | hm
  · exact hcross _ (List.mem_map_of_mem hm) _ List.mem_cons_self
  · intro bit hown hother
    exact List.rel_of_pairwise_cons hrest (List.mem_map_of_mem hm) bit hother hown

/-- Nobody else writes a bit. -/
theorem bit_beyond (h : s.Guarded) (hsplit : s.operators = before ++ n :: behind) {bit : Nat}
    (hown : n.node.operator.OwnsBit bit) : ∀ m ∈ before ++ behind,
      Region.Beyond ⟨fun _ => False, (· = bit), fun _ => False⟩ m.node.operator :=
  fun m hm => Operator.beyond_bit fun hother => h.bits_apart hsplit m hm bit hother hown

theorem operator_mem (hsplit : s.operators = before ++ n :: behind) :
    n.node.operator ∈ s.nodes := by
  rw [Slot.nodes, hsplit]
  exact List.mem_map_of_mem (List.mem_append_right _ List.mem_cons_self)

/-- A bit has one owner, and it is set exactly if its owner computed and its test held. -/
theorem test_passed (h : s.Guarded) (hsplit : s.operators = before ++ n :: behind) {f : Frame}
    {bit first : Nat} (hclear : f.bits.test bit = false) (hlen : f.bits.length = s.bits.length)
    (hf : n.node.operator.kind.firstBit? = some first) (hl : first ≤ bit)
    (hu : bit < first + n.node.operator.kind.bitCount)
    {between : List (Numbered RankedOperator)} (hb : between <+: behind) :
    (Slot.passed (before ++ n :: between) f).bits.test bit = true ↔
      n.node.operator.isOpen (Slot.passed before f).bits = true ∧
        n.node.operator.kind.Passes (n.node.operator.inputValues (Slot.passed before f))
          (bit - first) := by
  have hown : n.node.operator.OwnsBit bit := ⟨first, hf, hl, hu⟩
  have hmem := operator_mem hsplit
  have hothers := h.bit_beyond hsplit hown
  have hfront := Slot.mapOperators_step_frame
    (fun m hm => hothers m (List.mem_append_left _ hm)) f
  have hback := Slot.mapOperators_step_frame
    (fun m hm => hothers m (List.mem_append_right _ (hb.subset hm)))
    (n.node.operator.step (Slot.passed before f)).2
  have hlen' : (Slot.passed before f).bits.length = s.bits.length :=
    hfront.length_eq.symm.trans hlen
  have hfinal : (Slot.passed (before ++ n :: between) f).bits.test bit =
      (n.node.operator.step (Slot.passed before f)).2.bits.test bit := by
    rw [Slot.passed, Slot.mapOperators_append]
    exact (hback.bits bit rfl).symm
  rw [hfinal, Operator.step]
  cases ho : n.node.operator.isOpen (Slot.passed before f).bits with
  | false =>
    have hstill : (Slot.passed before f).bits.test bit = false :=
      (hfront.bits bit rfl).symm.trans hclear
    simp only [Bool.false_eq_true, false_and, iff_false, if_false, Bool.not_eq_true]
    exact hstill
  | true =>
    rw [if_pos rfl, Operator.test_compute (h.laid.shaped _ hmem) hf hl hu
      (hlen'.symm ▸ h.held _ hmem bit hown)]
    simp

/-- The owner of a gate bit stands in front of what the bit gates. -/
theorem owner_before (h : s.Guarded) (hsplit : s.operators = before ++ n :: behind) {bit : Nat}
    (hg : n.node.operator.gate = some bit) : ∃ front m back, before = front ++ m :: back ∧
      m.node.operator.OwnsBit bit := by
  have hmem := operator_mem hsplit
  obtain ⟨a, ha, hown⟩ := h.owner _ hmem bit hg
  obtain ⟨m, hm, rfl⟩ := List.mem_map.1 ha
  have hfront : m ∈ before := by
    rw [hsplit] at hm
    rcases List.mem_append.1 hm with hm | hm
    · exact hm
    · rcases List.mem_cons.1 hm with rfl | hm
      · exact absurd ⟨bit, hg, hown⟩ (h.selfless _ hmem)
      · have hgates := h.gates
        rw [Slot.nodes, hsplit, List.map_append, List.map_cons] at hgates
        exact absurd ⟨bit, hg, hown⟩ (List.rel_of_pairwise_cons
          (List.pairwise_append.1 hgates).2.1 (List.mem_map_of_mem hm))
  obtain ⟨front, back, hsplit'⟩ := List.append_of_mem hfront
  exact ⟨front, m, back, hsplit', hown⟩

/-- What an operator owns is apart from what the others of its slot own. -/
theorem part_beyond (h : s.Guarded) (hsplit : s.operators = before ++ n :: behind) :
    ∀ m ∈ before ++ behind, (n.node.operator.part
      fun p => ∀ k ∈ before ++ behind, ¬ k.node.operator.Opens p).Beyond m.node.operator := by
  have hapart := (List.pairwise_flatMap.1 h.laid.apart).2
  rw [Slot.nodes, hsplit, List.map_append, List.map_cons] at hapart
  intro m hm
  refine ⟨?_, h.bits_apart hsplit m hm, fun k hk hp => hp.1 m hm ⟨k, hk, rfl⟩⟩
  · rintro p hp i hi ⟨q, hq, hiq⟩
    have hp := m.node.operator.changing_subset_owned hp
    rcases List.mem_append.1 hm with hm | hm
    · exact (List.pairwise_append.1 hapart).2.2 _ (List.mem_map_of_mem hm) _ List.mem_cons_self
        p hp q hq i hi hiq
    · exact List.rel_of_pairwise_cons (List.pairwise_append.1 hapart).2.1
        (List.mem_map_of_mem hm) q hq p hp i hiq hi

theorem mapOperators_closed {f : Frame} (hsplit : s.operators = before ++ n :: behind)
    (hclosed : n.node.operator.isOpen (Slot.passed before f).bits = false) :
    Slot.mapOperators Operator.step s.operators f =
      ((Slot.mapOperators Operator.step before f).1 ++ n :: (Slot.mapOperators Operator.step behind
          ((Slot.passed before f).invalidate n.node.operator.outputs)).1,
        Slot.passed behind ((Slot.passed before f).invalidate n.node.operator.outputs)) := by
  rw [hsplit, Slot.mapOperators_append, Slot.mapOperators_cons]
  change ((Slot.mapOperators Operator.step before f).1 ++
    ⟨n.index, ⟨(n.node.operator.step (Slot.passed before f)).1, n.node.rank⟩⟩ ::
      (Slot.mapOperators Operator.step behind (n.node.operator.step (Slot.passed before f)).2).1,
    Slot.passed behind (n.node.operator.step (Slot.passed before f)).2) = _
  rw [Operator.step_closed hclosed]

/-- What an operator owns is not touched behind its step. -/
theorem agree_end (h : s.Guarded) (hsplit : s.operators = before ++ n :: behind)
    (hq : g.filler.queue = [])
    (hclosed : n.node.operator.isOpen (Slot.passed before (g.frame s)).bits = false) :
    ((Slot.passed before (g.frame s)).invalidate n.node.operator.outputs).AgreeOn
      (n.node.operator.part fun p => ∀ k ∈ before ++ behind, ¬ k.node.operator.Opens p)
      ((Graph.endEventSlot g s).1.frame (Graph.endEventSlot g s).2) := by
  have hbeyond := h.part_beyond hsplit
  have hstep := Operator.step_closed hclosed
  have hend := Graph.agree_behind hsplit hbeyond (by
    rw [hstep]
    exact Slot.within_mapOperators
      (fun m hm => Slot.mapOperators_bins_outside hbeyond m (List.mem_append_left _ hm))
      (Filler.within_nil hq))
  rwa [hstep] at hend

/-- An operator whose gate is closed leaves nothing behind but invalid outputs. -/
theorem idle (h : s.Guarded) (hsplit : s.operators = before ++ n :: behind)
    (hq : g.filler.queue = [])
    (hfit : ∀ p ∈ n.node.operator.outputs, p.data.stop ≤ g.arena.store.slots)
    (hclosed : n.node.operator.isOpen (Slot.passed before (g.frame s)).bits = false) :
    Idle g s before n behind := by
  let during := Slot.passed before (g.frame s)
  have hmem := operator_mem hsplit
  have hfront := Slot.mapOperators_step_frame
    (fun m hm => h.part_beyond hsplit m (List.mem_append_left _ hm)) (g.frame s)
  have hend := h.agree_end hsplit hq hclosed
  have hdrop := Operator.agree_invalidate ((List.pairwise_flatMap.1 h.laid.apart).1 _ hmem) during
  have houtputs : ∀ p ∈ n.node.operator.outputs, p.data ∈ n.node.operator.owned := fun p hp =>
    List.mem_append_left _ (List.mem_append_left _ (List.mem_flatMap.2 ⟨p, hp, p.data_mem_spans⟩))
  refine ⟨?_, fun p hp i hi => ?_, fun p hp i hi => ?_, fun bit hown => ?_,
    ⟨_, Operator.step_closed hclosed⟩, fun k hk hothers => ?_⟩
  · simp only [Graph.endEventSlot, mapOperators_closed hsplit hclosed]
    rw [List.getElem?_append_right (Nat.le_of_eq (Slot.length_mapOperators _ _ _)),
      Slot.length_mapOperators, Nat.sub_self]
    rfl
  · have hroom : p.data.stop ≤ during.store.slots := hfront.store.slots_eq ▸ hfit p hp
    have hin : p.data.offset + i ∈ p.data := ⟨Nat.le_add_right _ _, Nat.add_lt_add_left hi _⟩
    have hsame := hend.store.get_eq (p := p.data) (i := i) ⟨_, houtputs p hp, hin⟩
    exact (congrArg Value.isValid hsame).symm.trans (during.invalid_of_invalidate hp hroom hi)
  · have howned : ∃ q ∈ n.node.operator.owned, i ∈ q := by
      refine ⟨p, ?_, hi⟩
      rw [Operator.owned, List.append_assoc]
      exact List.mem_append_right _ hp
    exact ((hfront.store.read_eq i howned).trans ((hdrop.store.read_eq i ⟨p, hp, hi⟩).trans
      (hend.store.read_eq i howned))).symm
  · exact ((hfront.bits bit hown).trans (hend.bits bit hown)).symm
  · exact ((hfront.volume.files _ ⟨hothers, k, hk, rfl⟩).trans
      (hend.volume.files _ ⟨hothers, k, hk, rfl⟩)).symm

end Slot.Guarded

/-- No operator reads a bin, so a flush does not change what its inputs hold. -/
theorem Laid.values_flush {s : Slot} (h : Laid s.nodes) {g : Graph}
    {before behind : List (Numbered RankedOperator)} {n : Numbered RankedOperator}
    (hsplit : s.operators = before ++ n :: behind) (hq : g.filler.queue = []) {v : Pipe}
    (hv : v ∈ n.node.operator.inputs) :
    (Slot.passed s.operators (g.frame s)).store.values v.data =
      (Graph.endEventSlot g s).1.arena.store.values v.data := by
  have hn : n ∈ s.operators := hsplit ▸ List.mem_append_right _ List.mem_cons_self
  have hbins := h.bins n.node.operator (List.mem_map_of_mem hn)
  have hqueue := Slot.within_mapOperators
    (B := fun i => ∃ a ∈ s.nodes, ∃ p ∈ a.kind.bins, i ∈ p) (f := g.frame s)
    (fun m hm p hp i hi => ⟨m.node.operator, List.mem_map_of_mem hm, p, hp, hi⟩)
    (Filler.within_nil hq)
  have hflush := Filler.flush_frame hqueue hbins.reads (Slot.passed s.operators (g.frame s)).store
  exact hflush.values_eq fun i hi => Operator.reads_input hv v.data_mem_spans i hi

/-- The gates of a slot whose event is under way, and what stands behind them when it ends. -/
structure Gating (e : EventPlan) (g : Graph) (s : Slot) : Prop where
  cleared : ∀ bit, s.bits.test bit = false
  ungated : ∀ before n behind, s.operators = before ++ n :: behind →
    n.node.operator.gate = none →
      n.node.operator.isOpen (Slot.passed before (g.frame s)).bits = true
  /-- An operator computes exactly if the owner of its gate bit does, and the test of the owner
  holds for the element of the bit. -/
  gated : ∀ before n behind, s.operators = before ++ n :: behind →
    ∀ bit ∈ n.node.operator.gate, ∃ front m back first, before = front ++ m :: back ∧
      m.node.operator.kind.firstBit? = some first ∧ first ≤ bit ∧
      bit < first + m.node.operator.kind.bitCount ∧
      (∀ k ∈ s.operators, k.node.operator.OwnsBit bit → k = m) ∧
      (n.node.operator.isOpen (Slot.passed before (g.frame s)).bits = true ↔
        m.node.operator.isOpen (Slot.passed front (g.frame s)).bits = true ∧
          m.node.operator.kind.Passes
            (m.node.operator.inputValues (Slot.passed front (g.frame s))) (bit - first))
  /-- The values that an operator tests are those that its inputs have when the event has ended. -/
  settled : e.operators.Pairwise (fun a b => ¬ b.operator.Feeds a.operator) →
    ∀ before n behind, s.operators = before ++ n :: behind →
      n.node.operator.inputValues (Slot.passed before (g.frame s)) =
        n.node.operator.inputValues
          ((Graph.endEventSlot g s).1.frame (Graph.endEventSlot g s).2)
  idle : ∀ before n behind, s.operators = before ++ n :: behind →
    n.node.operator.isOpen (Slot.passed before (g.frame s)).bits = false →
      Idle g s before n behind

theorem Slot.Guarded.gated {s : Slot} (h : s.Guarded) (hclear : ∀ bit, s.bits.test bit = false)
    (g : Graph) {before behind : List (Numbered RankedOperator)} {n : Numbered RankedOperator}
    (hsplit : s.operators = before ++ n :: behind) {bit : Nat}
    (hg : n.node.operator.gate = some bit) :
    ∃ front m back first, before = front ++ m :: back ∧
      m.node.operator.kind.firstBit? = some first ∧ first ≤ bit ∧
      bit < first + m.node.operator.kind.bitCount ∧
      (∀ k ∈ s.operators, k.node.operator.OwnsBit bit → k = m) ∧
      (n.node.operator.isOpen (Slot.passed before (g.frame s)).bits = true ↔
        m.node.operator.isOpen (Slot.passed front (g.frame s)).bits = true ∧
          m.node.operator.kind.Passes
            (m.node.operator.inputValues (Slot.passed front (g.frame s))) (bit - first)) := by
  obtain ⟨front, m, back, rfl, hown⟩ := h.owner_before hsplit hg
  obtain ⟨first, hf, hl, hu⟩ := hown
  have hsplit' : s.operators = front ++ m :: (back ++ n :: behind) := by
    rw [hsplit]
    simp
  refine ⟨front, m, back, first, rfl, hf, hl, hu, fun k hk hkown => ?_, ?_⟩
  · rw [hsplit'] at hk
    rcases List.mem_cons.1 (List.perm_middle.subset hk) with rfl | hk
    · rfl
    · exact absurd ⟨first, hf, hl, hu⟩ (h.bits_apart hsplit' k hk bit hkown)
  · have htest := h.test_passed hsplit' (f := g.frame s) (hclear bit) rfl hf hl hu
      (List.prefix_append back (n :: behind))
    rw [← htest]
    simp [Operator.isOpen, hg]

namespace Graph

open Workbench in
/-- In every event of every run an operator computes exactly if the conditions on which it depends
computed and hold, and otherwise it leaves nothing behind but invalid outputs. -/
theorem gates_exact (capacity : Nat) (strategy : FillStrategy) (calls : List BuildCall)
    (volume : Volume) (runs : List RunCall) (event : Nat) (e : EventPlan) (s : Slot)
    (he : (after capacity strategy calls).plan.events[event]? = some e)
    (hs : (runs.foldl RunCall.apply
      ((after capacity strategy calls).plan.build volume)).slots[event]? = some s)
    (hrun : Underway event runs) :
    Gating e (runs.foldl RunCall.apply ((after capacity strategy calls).plan.build volume)) s := by
  have hsound := sound_after capacity strategy calls
  have hmem := List.mem_of_getElem? he
  have hclear := fun bit => bits_underway hrun hs bit
  have hqueue := queue_run runs (queue_build (after capacity strategy calls).plan volume)
  have hwired := (hsound.wired volume).of_layout (layout_run _ runs)
  obtain ⟨t, ht, hst⟩ := slot_resting_run hs
  obtain rfl : e.slot = t := Option.some.inj ((Plan.slots_build he volume).symm.trans ht)
  have hguarded := (hsound.guarded hmem).of_resting hst
  have hnodes : s.nodes.map Operator.resting = e.slot.nodes.map Operator.resting := by
    rw [← Slot.nodes_resting, hst, Slot.nodes_resting]
  generalize runs.foldl RunCall.apply ((after capacity strategy calls).plan.build volume) = g at *
  refine ⟨hclear, fun before n behind _ hg => by simp [Operator.isOpen, hg],
    fun before n behind hsplit bit hg => hguarded.gated hclear _ hsplit hg,
    fun hfirst before n behind hsplit => ?_, fun before n behind hsplit hclosed => ?_⟩
  · have hagree := ((hsound.inOrder hmem hfirst).of_resting hnodes).settled (g.frame s) hsplit
    refine List.map_congr_left fun v hv => ?_
    have hsteps := hagree.store.values_eq (p := v.data) fun i hi =>
      ⟨v.data, List.mem_flatMap.2 ⟨v, hv, v.data_mem_spans⟩, hi⟩
    exact hsteps.trans (hguarded.laid.values_flush hsplit hqueue hv)
  · refine hguarded.idle hsplit hqueue (fun p hp => ?_) hclosed
    refine hwired.fits s (List.mem_of_getElem? hs) p.data (List.mem_append_right _ ?_)
    refine List.mem_flatMap.2 ⟨n.node.operator, ?_, List.mem_append_left _ (List.mem_append_left _
      (List.mem_flatMap.2 ⟨p, hp, p.data_mem_spans⟩))⟩
    rw [Slot.nodes, hsplit]
    exact List.mem_map_of_mem (List.mem_append_right _ List.mem_cons_self)

/-- A filter, conditions on its elements, conditions that one of these gates, and a filter of one
element that one of the gated conditions gates. -/
def gatedChain : List BuildCall :=
  let raw : Pipe := ⟨⟨0, 2⟩, ⟨4, 2⟩, ⟨8, 2⟩⟩
  let passed : Pipe := ⟨⟨12, 2⟩, ⟨16, 2⟩, ⟨20, 2⟩⟩
  let second : Pipe := ⟨⟨13, 1⟩, ⟨17, 1⟩, ⟨21, 1⟩⟩
  [.pushPipe 2 .zero .zero, .makeOperator (.rangeFilter raw .unbounded false),
    .addOperator 0 0 none, .makeOperator (.intervalCondition passed [.unbounded, .unbounded]),
    .addOperator 0 0 none, .makeOperator (.intervalCondition passed [.unbounded, .unbounded]),
    .addOperator 0 0 (some 1), .makeOperator (.rangeFilter second .unbounded true),
    .addOperator 0 0 (some 3)]

open Workbench in
theorem gates_exact_gatedChain :
    let runs := [RunCall.beginRun, .during (.beginEvent 0), .during .tick]
    ∃ e s, (after 4096 .batched gatedChain).plan.events[0]? = some e ∧
      e.operators.map (fun o => o.operator.gate) = [none, none, some 1, some 3] ∧
      Gating e (runs.foldl RunCall.apply ((after 4096 .batched gatedChain).plan.build .fresh)) s := by
  intro runs
  have he := List.getElem?_eq_getElem
    (show 0 < (after 4096 .batched gatedChain).plan.events.length by decide +kernel)
  have hs := List.getElem?_eq_getElem (show 0 < (runs.foldl RunCall.apply
    ((after 4096 .batched gatedChain).plan.build .fresh)).slots.length by decide +kernel)
  exact ⟨_, _, he, by decide +kernel, gates_exact 4096 .batched gatedChain .fresh runs 0 _ _ he hs
    ⟨[.beginRun], [.during .tick], rfl, by simp⟩⟩

end Graph

end Readout
