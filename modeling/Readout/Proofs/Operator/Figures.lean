import Readout.Proofs.Operator.Phase
import Readout.Proofs.Operator.Validity

/-!
# Factors and counters

An operator that was made with valid factors and counters keeps them valid: no step writes factors,
counters only grow by one or start from zero again, and nothing else reaches them. `Lives` lists
the states that an operator comes to while the rest of its arena changes in any way.
-/
namespace Readout

theorem Kind.figures_resting (k : Kind) : k.resting.figures = k.figures := by
  cases k <;> rfl

namespace Operator

/-- The states of an operator and of the store around it from the time on when it was made: it steps
and begins runs, and what it does not own may change in between. -/
inductive Lives (op : Operator) (made : Store) : Operator → Store → Prop
  | made : Lives op made op made
  | step {op' : Operator} {f : Frame} (h : Lives op made op' f.store) :
    Lives op made (op'.step f).1 (op'.step f).2.store
  | beginRun {op' : Operator} {f : Frame} (h : Lives op made op' f.store) :
    Lives op made (op'.beginRun f).1 (op'.beginRun f).2.store
  | others {op' : Operator} {s t : Store} (h : Lives op made op' s)
    (hsame : s.AgreeOn (fun i => ∃ p ∈ op.owned, i ∈ p) t) : Lives op made op' t

variable {op op' : Operator} {f g : Frame} {s t : Store}

theorem figures_subset_owned (op : Operator) : op.kind.figures ⊆ op.owned := by
  have hmemory : op.kind.figures ⊆ op.kind.memory := by
    cases op.kind <;> simp [Kind.figures, Kind.memory]
  exact fun p hp => InRange.memory_mem_owned (hmemory hp)

theorem Figured.agree (h : op.Figured s) {P : Nat → Prop} (hsame : s.AgreeOn P t)
    (hP : ∀ p ∈ op.kind.figures, ∀ i ∈ p, P i) : op.Figured t := by
  intro p hp i hi
  rw [← hsame.get_eq (hP p hp _ ⟨by omega, by omega⟩)]
  exact h p hp i hi

theorem Figured.of_resting (h : op.Figured s) (hr : op'.resting = op.resting) : op'.Figured s := by
  have hk : op'.kind.figures = op.kind.figures := by
    rw [← Kind.figures_resting op'.kind, ← Kind.figures_resting op.kind]
    exact congrArg (fun k : Operator => k.kind.figures) hr
  intro p hp
  exact h p (hk ▸ hp)

/-- A closed step writes outputs only. -/
theorem Figured.invalidate (h : op.Figured f.store) {o : Pipe}
    (ho : ∀ p ∈ op.kind.figures, p.Apart o.data) : op.Figured (f.invalidate [o]).store := by
  refine h.agree (f.store.agree_fill (P := fun i => i ∉ o.data) Value.invalid ?_) ?_
  · exact fun i hi hn => hn hi
  · exact fun p hp => ho p hp

theorem Figured.step (hf : op.Figured f.store) (h : InRange f.store.slots op) :
    op.Figured (op.step f).2.store := by
  have hs := h.shaped
  have hfits := h.fits
  obtain ⟨inputs, outputs, gate, kind⟩ := op
  cases kind with
  | calibration factors =>
    obtain ⟨p, o, rfl, rfl, -⟩ := hs
    have happ : ∀ q ∈ [factors], q.Apart o.data := fun q hq =>
      h.output_apart_memory (List.mem_singleton_self o) o.data_mem_spans hq
    rw [Operator.step]
    split
    · exact hf.agree (f.store.agree_assign (P := fun i => i ∉ o.data) _ fun i hi hn => hn hi) happ
    · exact hf.invalidate happ
  | scalerOverflow last overflows =>
    obtain ⟨p, o, rfl, rfl, -, hcounts, hlen⟩ := hs
    have happ : ∀ q ∈ [overflows], q.Apart o.data := fun q hq =>
      h.output_apart_memory (List.mem_singleton_self o) o.data_mem_spans
        (List.mem_cons_of_mem last hq)
    rw [Operator.step]
    split
    · intro q hq i hi
      obtain rfl : q = overflows := List.mem_singleton.1 hq
      rw [(h.get_scalerOverflow (by omega)).2.1]
      exact Element.isValid_overflows (hf q hq i hi) _ _
    · exact hf.invalidate happ
  | _ => exact fun q hq => absurd hq List.not_mem_nil

theorem Figured.beginRun (hf : op.Figured f.store) (h : InRange f.store.slots op) :
    op.Figured (op.beginRun f).2.store := by
  have hfits := h.fits
  obtain ⟨inputs, outputs, gate, kind⟩ := op
  cases kind with
  | calibration factors => exact hf
  | scalerOverflow last overflows =>
    intro q hq i hi
    obtain rfl : q = overflows := List.mem_singleton.1 hq
    have hfit : q.stop ≤ f.store.slots := hfits q (List.mem_append_right _
      (InRange.memory_mem_owned (by simp [Kind.memory])))
    have hzero : ((f.store.invalidate last).fill q Value.zero).get q i = Value.zero :=
      Store.get_fill _ _ hi (by rwa [Store.invalidate, Store.slots_fill])
    change (((f.store.invalidate last).fill q Value.zero).get q i).isValid = true
    rw [hzero]
    decide
  | _ => exact fun q hq => absurd hq List.not_mem_nil

theorem slots_step (op : Operator) (f : Frame) : (op.step f).2.store.slots = f.store.slots := by
  obtain ⟨k, cs, hr⟩ := op.exists_response f
  rw [hr.step_eq f (.refl _ f), Change.slots_applyAll]

theorem InRange.of_resting {slots : Nat} (h : InRange slots op) (hr : op'.resting = op.resting) :
    InRange slots op' :=
  map_resting.1 (hr ▸ map_resting.2 h)

theorem fixed_beyond (h : op.owned.Pairwise Span.Apart) (hr : op'.resting = op.resting) :
    Region.Beyond ⟨fun i => ∃ p ∈ op.fixed, i ∈ p, fun _ => False, fun _ => False⟩ op' := by
  have howned : op'.owned = op.owned := by rw [← owned_resting, hr, owned_resting]
  have hfixed : op'.fixed = op.fixed := by rw [← fixed_resting, hr, fixed_resting]
  have hparts := List.pairwise_append.1
    ((howned.symm ▸ h).perm op'.owned_parts fun k => k.symm)
  refine ⟨?_, fun _ _ => id, fun _ _ => id⟩
  rintro q hq i hi ⟨p, hp, hip⟩
  exact hparts.2.2 p (hfixed.symm ▸ hp) q hq i hip hi

/-- The limits of the outputs and the factors are written by the maker and never again. -/
theorem Lives.fixed {made : Store} (h : op.Lives made op' s) (ha : op.owned.Pairwise Span.Apart) :
    op'.resting = op.resting ∧ made.AgreeOn (fun i => ∃ p ∈ op.fixed, i ∈ p) s := by
  induction h with
  | made => exact ⟨rfl, .refl _ _⟩
  | @step k g _ ih =>
    obtain ⟨hrest, hsame⟩ := ih
    refine ⟨(k.resting_step g).trans hrest, hsame.trans ?_⟩
    exact (step_frame (fixed_beyond ha hrest) g).store
  | @beginRun k g _ ih =>
    obtain ⟨hrest, hsame⟩ := ih
    refine ⟨(phase_beginRun.resting k g).trans hrest, hsame.trans ?_⟩
    exact beginRun_frame (fun p hp => (fixed_beyond ha hrest).slots p (k.cleared_subset hp)) g
  | others _ hsame ih =>
    have hfixed : op.fixed ⊆ op.owned := fun p hp =>
      op.owned_parts.symm.subset (List.mem_append_left _ hp)
    refine ⟨ih.1, ih.2.trans (hsame.mono ?_)⟩
    rintro i ⟨p, hp, hi⟩
    exact ⟨p, hfixed hp, hi⟩

/-- An operator stays what it is, and so do its figures and the size of the store. -/
theorem Lives.spec {made : Store} (h : op.Lives made op' s) (hr : InRange made.slots op)
    (hf : op.Figured made) : op'.resting = op.resting ∧ s.slots = made.slots ∧ op.Figured s := by
  induction h with
  | made => exact ⟨rfl, rfl, hf⟩
  | @step k g _ ih =>
    obtain ⟨hrest, hslots, hfig⟩ := ih
    have hrange : InRange g.store.slots k := hslots ▸ hr.of_resting hrest
    refine ⟨(k.resting_step g).trans hrest, (k.slots_step g).trans hslots, ?_⟩
    exact ((hfig.of_resting hrest).step hrange).of_resting hrest.symm
  | @beginRun k g _ ih =>
    obtain ⟨hrest, hslots, hfig⟩ := ih
    have hrange : InRange g.store.slots k := hslots ▸ hr.of_resting hrest
    refine ⟨(phase_beginRun.resting k g).trans hrest, (phase_beginRun.slots k g).trans hslots, ?_⟩
    exact ((hfig.of_resting hrest).beginRun hrange).of_resting hrest.symm
  | others _ hsame ih =>
    obtain ⟨hrest, hslots, hfig⟩ := ih
    refine ⟨hrest, hsame.slots_eq ▸ hslots, hfig.agree hsame fun p hp i hi => ⟨p, ?_, hi⟩⟩
    exact op.figures_subset_owned hp

end Operator

end Readout
