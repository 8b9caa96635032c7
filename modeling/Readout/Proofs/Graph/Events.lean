import Readout.Proofs.Graph.Fixed
import Readout.Proofs.Source.Restart

/-!
# Events start over

Outputs of operators are not cleared between events, and decoders keep the words that they have let
go. Nevertheless an event without stateful operators is computed from the words that its slot was
handed since it began: whatever else is left of earlier events is overwritten before it is read.
Two runs are compared by what an event is computed from; calls that do not bear on the event leave
this as it is in one run, and calls that do change it alike in both.
-/
namespace Readout

namespace Kind

/-- Kinds that only take in values, and write neither outputs nor condition bits. -/
def isSink : Kind → Bool
  | histograms _ | planeHistogram _ | rateMonitor _ | exportSink _ => true
  | _ => false

/-- Kinds of which no output and no bit depends on earlier events. -/
def stateless : Kind → Bool
  | keepPrevious .. | scalerOverflow .. | expression _ => false
  | _ => true

/-- Kinds that a run changes in nothing. -/
structure Calm (k : Kind) : Prop where
  resting_eq : k.resting = k
  bins : k.bins = []
  state : k.state = []
  revised : ∀ outputs, k.revised outputs = []
  writes : ∀ s, k ≠ .exportSink s

theorem isSink_resting (k : Kind) : k.resting.isSink = k.isSink := by
  cases k <;> rfl

theorem stateless_resting (k : Kind) : k.resting.stateless = k.stateless := by
  cases k <;> rfl

theorem calm {k : Kind} (h : k.stateless = true) (hs : k.isSink = false) : k.Calm := by
  cases k with
  | keepPrevious | scalerOverflow | expression => cases h
  | histograms | planeHistogram | rateMonitor | exportSink => cases hs
  | _ => exact ⟨rfl, rfl, rfl, fun _ => rfl, fun _ h => by cases h⟩

end Kind

namespace Operator

variable {op op' : Operator} {f f' : Frame} {P : Nat → Prop}

theorem written_resting (op : Operator) : op.resting.written = op.written := by
  obtain ⟨inputs, outputs, gate, kind⟩ := op
  cases kind <;> rfl

theorem outputs_of_sink (h : op.kind.isSink = true) (hs : op.Shaped) : op.outputs = [] := by
  obtain ⟨inputs, outputs, gate, kind⟩ := op
  cases kind with
  | histograms hists =>
    obtain ⟨_, _, hout, _⟩ := hs
    exact hout
  | planeHistogram hist =>
    obtain ⟨_, _, _, hout, _⟩ := hs
    exact hout
  | rateMonitor m =>
    obtain ⟨_, _, hout, _⟩ := hs
    exact hout
  | exportSink sink => exact hs.2.1
  | _ => cases h

theorem not_ownsBit_of_sink (h : op.kind.isSink = true) (bit : Nat) : ¬ op.OwnsBit bit := by
  rintro ⟨first, hf, -⟩
  obtain ⟨inputs, outputs, gate, kind⟩ := op
  cases kind with
  | histograms | planeHistogram | rateMonitor | exportSink => cases hf
  | _ => cases h

theorem step_of_sink (h : op.kind.isSink = true)
    (hP : ∀ p ∈ op.written ++ op.kind.bins, ∀ i ∈ p, ¬ P i) (f : Frame) :
    f.bits = (op.step f).2.bits ∧ f.store.AgreeOn P (op.step f).2.store := by
  have hbeyond : Region.Beyond ⟨P, fun _ => True, fun _ => False⟩ op :=
    ⟨hP, fun bit hb => absurd hb (not_ownsBit_of_sink h bit), fun _ _ => id⟩
  have hframe := step_frame hbeyond f
  exact ⟨ConditionBits.eq_of_test hframe.length_eq fun i => hframe.bits i trivial, hframe.store⟩

/-- What steps of an operator make of frames with the same bits that agree on what it reads, where
the operator is the same but for what a sink keeps. -/
theorem step_alike (hkind : op.kind.stateless = true) (hr : op.resting = op'.resting)
    (hs : op.Shaped) (he : ∀ p ∈ op.inputs ++ op.outputs, p.Even)
    (hfit : ∀ p ∈ op.outputs, p.data.stop ≤ f.store.slots)
    (hreads : op.kind.Calm → ∀ i, op.reads.slots i → P i)
    (hP : ∀ p ∈ op.written ++ op.kind.bins, ∀ i ∈ p, ¬ P i)
    (h : f.store.AgreeOn P f'.store) (hb : f.bits = f'.bits) :
    (op.step f).2.bits = (op'.step f').2.bits ∧
      (op.step f).2.store.AgreeOn (fun i => P i ∨ ∃ p ∈ op.outputs, i ∈ p.data)
        (op'.step f').2.store := by
  have hkinds : op.kind.resting = op'.kind.resting := congrArg kind hr
  cases hsink : op.kind.isSink with
  | true =>
    have hsink' : op'.kind.isSink = true := by
      rw [← Kind.isSink_resting, ← hkinds, Kind.isSink_resting, hsink]
    have hP' : ∀ p ∈ op'.written ++ op'.kind.bins, ∀ i ∈ p, ¬ P i := by
      rwa [← written_resting, ← Kind.bins_resting, ← hr, ← hkinds, written_resting,
        Kind.bins_resting]
    obtain ⟨hbits, hstore⟩ := step_of_sink hsink hP f
    obtain ⟨hbits', hstore'⟩ := step_of_sink hsink' hP' f'
    refine ⟨hbits.symm.trans (hb.trans hbits'), ?_⟩
    refine ((hstore.symm.trans h).trans hstore').mono fun i hi => hi.resolve_right ?_
    simp [outputs_of_sink hsink hs]
  | false =>
    have hcalm := Kind.calm hkind hsink
    have hcalm' : op'.kind.Calm := by
      refine Kind.calm ?_ ?_
      · rw [← Kind.stateless_resting, ← hkinds, Kind.stateless_resting, hkind]
      · rw [← Kind.isSink_resting, ← hkinds, Kind.isSink_resting, hsink]
    have hop : op = op' := by
      have hkind_eq := hcalm.resting_eq.symm.trans (hkinds.trans hcalm'.resting_eq)
      obtain ⟨inputs, outputs, gate, kind⟩ := op
      obtain ⟨inputs', outputs', gate', kind'⟩ := op'
      simp only [resting, mk.injEq] at hr hkind_eq ⊢
      exact ⟨hr.1, hr.2.1, hr.2.2.1, hkind_eq⟩
    subst hop
    have hsame : op.Indistinct f f' :=
      ⟨h.mono (hreads hcalm), fun bit _ => by rw [hb], fun s hk => absurd hk (hcalm.writes s)⟩
    exact ⟨(step_bits hsame hb).2,
      step_renews hsame hcalm.bins hs he (hcalm.revised _) hfit h⟩

end Operator

namespace Graph

variable {g : Graph} {s s' : Slot}

theorem Contained.filled_beyond (h : g.Contained) (hs : s ∈ g.slots)
    {before behind : List (Numbered RankedOperator)} {n : Numbered RankedOperator}
    (hsplit : s.operators = before ++ n :: behind) :
    Region.Beyond ⟨fun i => s.given i ∨ Slot.filled before i, fun _ => False, fun _ => False⟩
      n.node.operator := by
  have hop : n.node.operator ∈ s.nodes := by
    rw [Slot.nodes, hsplit]
    exact List.mem_map_of_mem (List.mem_append_right _ List.mem_cons_self)
  refine ⟨fun q hq i hi hmem => ?_, fun _ _ => id, fun _ _ => id⟩
  rcases hmem with hgiven | ⟨m, hm, p, hp, hip⟩
  · exact (h.wired.given_beyond hs _ hop).slots q hq i hi hgiven
  · have hapart := (List.pairwise_flatMap.1 (h.slots s hs).order.laid.apart).2
    rw [Slot.nodes, hsplit, List.map_append, List.map_cons] at hapart
    refine (List.pairwise_append.1 hapart).2.2 _ (List.mem_map_of_mem hm) _ List.mem_cons_self
      p.data ?_ q (n.node.operator.changing_subset_owned hq) i hip hi
    exact m.node.operator.changing_subset_owned
      (List.mem_append_left _ (Operator.mem_written_output hp))

/-- On frames with the same bits that agree on what is given, all steps of a slot write the same
outputs and bits. -/
theorem Contained.steps_alike (h : g.Contained) (hs : s ∈ g.slots)
    (hkinds : ∀ op ∈ s.nodes, op.kind.stateless = true) (hrest : s.resting = s'.resting)
    (f f' : Frame) (hroom : f.store.slots = g.arena.store.slots)
    (hstore : f.store.AgreeOn s.given f'.store) (hbits : f.bits = f'.bits) :
    (Slot.mapOperators Operator.step s.operators f).2.bits =
        (Slot.mapOperators Operator.step s'.operators f').2.bits ∧
      (Slot.mapOperators Operator.step s.operators f).2.store.AgreeOn
        (fun i => s.given i ∨ Slot.filled s.operators i)
        (Slot.mapOperators Operator.step s'.operators f').2.store := by
  have hcontained := h.slots s hs
  have hlaid := hcontained.order.laid
  let Q (before : List (Numbered RankedOperator)) (f f' : Frame) : Prop :=
    f.store.slots = g.arena.store.slots ∧ f.bits = f'.bits ∧
      f.store.AgreeOn (fun i => s.given i ∨ Slot.filled before i) f'.store
  have hstart : Q [] f f' :=
    ⟨hroom, hbits, hstore.mono fun i hi => hi.resolve_right (by simp [Slot.filled])⟩
  have hpairs := Slot.forall₂_of_resting (congrArg Slot.operators hrest)
  refine (Slot.mapOperators_paired s.operators (fun _ _ => True) Q
    (fun before n behind n' f f' hsplit hn hQ => ⟨trivial, ?_⟩) rfl hpairs hstart).2.2
  obtain ⟨hroom, hb, hst⟩ := hQ
  have hop : n.node.operator.resting = n'.node.operator.resting :=
    congrArg (fun k : Numbered RankedOperator => k.node.operator) hn
  have hmem : n.node.operator ∈ s.nodes := by
    rw [Slot.nodes, hsplit]
    exact List.mem_map_of_mem (List.mem_append_right _ List.mem_cons_self)
  have hfilled : ∀ i, Slot.filled (before ++ [n]) i ↔
      Slot.filled before i ∨ ∃ p ∈ n.node.operator.outputs, i ∈ p.data := fun i => by
    simp [Slot.filled, or_and_right, exists_or]
  have hbeyond := h.filled_beyond hs hsplit
  have hfit : ∀ p ∈ n.node.operator.outputs, p.data.stop ≤ f.store.slots := fun p hp =>
    hroom ▸ h.wired.pipe_fits hs (Slot.operator_pipe hmem hp)
  have hreads : n.node.operator.kind.Calm → ∀ i, n.node.operator.reads.slots i →
      s.given i ∨ Slot.filled before i := by
    intro hcalm i hi
    have hgiven := hcontained.reads_given hsplit (hcalm.revised _) hi
    rw [hcalm.state] at hgiven
    simpa using hgiven
  obtain ⟨hbits, hstore⟩ := Operator.step_alike (hkinds _ hmem) hop (hlaid.shaped _ hmem)
    (hcontained.inputs_even hmem) hfit hreads hbeyond.slots hst hb
  exact ⟨(Operator.step_frame hbeyond f).store.slots_eq.symm.trans hroom, hbits,
    hstore.mono fun i hi => by rwa [hfilled, ← or_assoc] at hi⟩

/-- When events end in graphs whose slots are the same but for what sinks keep, and that agree on
what is given, the outputs and bits are the same in both. -/
theorem Idling.endEvent_alike {g' : Graph} (h : g.Idling) (h' : g'.Idling) (hs : s ∈ g.slots)
    (hkinds : ∀ op ∈ s.nodes, op.kind.stateless = true) (hrest : s.resting = s'.resting)
    (hbits : s.bits = s'.bits) (hstore : g.arena.store.AgreeOn s.given g'.arena.store) :
    (endEventSlot g s).2.bits = (endEventSlot g' s').2.bits ∧
      (endEventSlot g s).1.arena.store.AgreeOn (fun i => s.given i ∨ Slot.filled s.operators i)
        (endEventSlot g' s').1.arena.store := by
  obtain ⟨hb, hst⟩ := h.contained.steps_alike hs hkinds hrest (g.frame s) (g'.frame s')
    rfl hstore hbits
  refine ⟨hb, ?_⟩
  let B (i : Nat) := ∃ op ∈ s.nodes, ∃ p ∈ op.kind.bins, i ∈ p
  have hapart : ∀ i, s.given i ∨ Slot.filled s.operators i → ¬ B i := by
    rintro i (hi | ⟨n, hn, p, hp, hip⟩) ⟨op, ho, q, hq, hiq⟩
    · exact (h.contained.wired.given_beyond hs op ho).slots q (List.mem_append_right _ hq) i hiq hi
    · have hbins := (h.contained.slots s hs).order.laid.bins _ (List.mem_map_of_mem hn)
      exact hbins.written _ (Operator.mem_written_output hp) i hip ⟨op, ho, q, hq, hiq⟩
  have hnodes : s'.nodes.map Operator.resting = s.nodes.map Operator.resting := by
    rw [← Slot.nodes_resting, ← hrest, Slot.nodes_resting]
  have hqueue : (Slot.mapOperators Operator.step s.operators (g.frame s)).2.filler.Within B :=
    Slot.within_mapOperators (fun n hn p hp i hi => ⟨_, List.mem_map_of_mem hn, p, hp, hi⟩)
      (Filler.within_nil h.queue)
  have hqueue' : (Slot.mapOperators Operator.step s'.operators (g'.frame s')).2.filler.Within B := by
    refine Slot.within_mapOperators (fun n hn p hp i hi => ?_) (Filler.within_nil h'.queue)
    have hmem : n.node.operator.resting ∈ s.nodes.map Operator.resting :=
      hnodes ▸ List.mem_map_of_mem (List.mem_map_of_mem hn)
    obtain ⟨op, ho, hop⟩ := List.mem_map.1 hmem
    refine ⟨op, ho, p, ?_, hi⟩
    rwa [← Kind.bins_resting, ← Operator.kind_resting, hop, Operator.kind_resting,
      Kind.bins_resting]
  exact ((Filler.flush_frame hqueue hapart _).symm.trans hst).trans
    (Filler.flush_frame hqueue' hapart _)

end Graph

end Readout
