import Readout.Proofs.Operator.Footprint

/-!
# Phases of a run

When a run begins or ends, and when time ticks, operators do not step but clear what they keep,
open and close files and take samples. None of this queues a bin or writes a condition bit.
-/
namespace Readout

/-- The same contents, whatever the bins that are queued. -/
structure Frame.Same (f g : Frame) : Prop where
  store : f.store.Same g.store
  bits : f.bits = g.bits
  volume : f.volume = g.volume

namespace Histogram

theorem clearEach_eq (hs : List Histogram) (s : Store) :
    clearEach hs s = (hs.map blank, s.fillAll (hs.map fun h => (h.data, Value.zero))) := by
  induction hs generalizing s with
  | nil => rfl
  | cons h hs ih =>
    rw [clearEach]
    simp only [clear, ih]
    rfl

end Histogram

namespace Kind

/-- What the spans of a kind hold when a run begins. -/
def cleared : Kind → List (Span × Value)
  | keepPrevious previous _ => [(previous, Value.invalid)]
  | scalerOverflow last overflows => [(last, Value.invalid), (overflows, Value.zero)]
  | histograms hs => hs.map fun h => (h.data, Value.zero)
  | planeHistogram h => [(h.data, Value.zero)]
  | rateMonitor m => [(m.hitCounts, Value.zero)]
  | _ => []

theorem spans_cleared (k : Kind) : k.cleared.map Prod.fst = k.state ++ k.bins := by
  cases k with
  | histograms hs => simp [cleared, state, bins, Function.comp_def]
  | _ => rfl

theorem cleared_resting (k : Kind) : k.resting.cleared = k.cleared := by
  cases k with
  | histograms hs => simp [cleared, resting, Function.comp_def]
  | _ => rfl

end Kind

namespace ExportSink

variable {V : Type} [Files V]

theorem blank_beginRun (s : ExportSink) (v : V) : (s.beginRun v).1.blank = s.blank := by
  rw [beginRun]
  dsimp only
  split <;> rfl

theorem blank_endRun (s : ExportSink) (v : V) : (s.endRun v).1.blank = s.blank := by
  rw [endRun]
  split
  · rfl
  · split <;> rfl

end ExportSink

namespace Operator

/-- What operators do between events. -/
structure Phase (φ : Operator → Frame → Operator × Frame) : Prop where
  same : ∀ op f g, f.Same g → (φ op f).1 = (φ op g).1 ∧ (φ op f).2.Same (φ op g).2
  resting : ∀ op f, (φ op f).1.resting = op.resting
  filler : ∀ op f, (φ op f).2.filler = f.filler
  bits : ∀ op f, (φ op f).2.bits = f.bits
  slots : ∀ op f, (φ op f).2.store.slots = f.store.slots

theorem beginRun_store (op : Operator) (f : Frame) :
    (op.beginRun f).2.store = f.store.fillAll op.kind.cleared := by
  obtain ⟨inputs, outputs, gate, kind⟩ := op
  cases kind with
  | histograms hs =>
    simp only [beginRun, Histogram.clearEach_eq]
    rfl
  | _ => rfl

theorem phase_beginRun : Phase beginRun := by
  constructor
  · intro op f g h
    have hstore : (op.beginRun f).2.store.Same (op.beginRun g).2.store := by
      rw [beginRun_store, beginRun_store]
      exact h.store.fillAll _
    obtain ⟨inputs, outputs, gate, kind⟩ := op
    cases kind with
    | histograms hists =>
      refine ⟨?_, hstore, h.bits, h.volume⟩
      simp only [beginRun, Histogram.clearEach_eq]
    | exportSink s =>
      simp only [beginRun, h.volume, true_and]
      exact ⟨h.store, h.bits, rfl⟩
    | _ => exact ⟨rfl, hstore, h.bits, h.volume⟩
  · rintro ⟨inputs, outputs, gate, kind⟩ f
    cases kind with
    | histograms hs =>
      simp [beginRun, Histogram.clearEach_eq, resting, Kind.resting, Function.comp_def,
        Histogram.blank]
    | rateMonitor m =>
      simp [beginRun, RateMonitor.beginRun, resting, Kind.resting, Function.comp_def,
        Sampler.reset, Sampler.new]
    | exportSink s =>
      have hs := congrArg Kind.exportSink (s.blank_beginRun f.volume)
      exact congrArg (Operator.mk inputs outputs gate) hs
    | _ => rfl
  · rintro ⟨inputs, outputs, gate, kind⟩ f
    cases kind <;> rfl
  · rintro ⟨inputs, outputs, gate, kind⟩ f
    cases kind <;> rfl
  · intro op f
    rw [beginRun_store]
    exact f.store.slots_fillAll _

theorem phase_endRun : Phase endRun := by
  constructor
  · rintro ⟨inputs, outputs, gate, kind⟩ f g ⟨hs, hb, hv⟩
    cases kind with
    | exportSink s =>
      simp only [endRun, hv, true_and]
      exact ⟨hs, hb, rfl⟩
    | _ => exact ⟨rfl, hs, hb, hv⟩
  · rintro ⟨inputs, outputs, gate, kind⟩ f
    cases kind with
    | exportSink s =>
      have hs := congrArg Kind.exportSink (s.blank_endRun f.volume)
      exact congrArg (Operator.mk inputs outputs gate) hs
    | _ => rfl
  all_goals
    rintro ⟨inputs, outputs, gate, kind⟩ f
    cases kind <;> rfl

theorem phase_tick : Phase fun op f => (op.tick f.store, f) := by
  constructor
  · rintro ⟨inputs, outputs, gate, kind⟩ f g h
    refine ⟨?_, h⟩
    cases kind with
    | rateMonitor m =>
      have hc := h.store.values_eq (p := m.hitCounts) fun _ _ => trivial
      simp only [tick, RateMonitor.tick, hc]
    | _ => rfl
  · rintro ⟨inputs, outputs, gate, kind⟩ f
    cases kind with
    | rateMonitor m =>
      simp only [tick, RateMonitor.tick, resting, Kind.resting]
      split
      · rw [RateMonitor.reset_zipSamplers RateMonitor.reset_sample]
      · rfl
    | _ => rfl
  · exact fun _ _ => rfl
  · exact fun _ _ => rfl
  · exact fun _ _ => rfl

section Reach

variable {R : Region} {op : Operator} {f g : Frame}

theorem mem_spans_cleared {k : Kind} {x : Span × Value} (hx : x ∈ k.cleared) :
    x.1 ∈ k.state ++ k.bins := k.spans_cleared ▸ List.mem_map_of_mem hx

theorem beginRun_frame {P : Nat → Prop} (hP : ∀ p ∈ op.kind.state ++ op.kind.bins, ∀ i ∈ p, ¬ P i)
    (f : Frame) : f.store.AgreeOn P (op.beginRun f).2.store := by
  rw [beginRun_store]
  exact f.store.agree_fillAll fun x hx => hP x.1 (mem_spans_cleared hx)

/-- When a run begins, an operator clears what it remembers and its bins. -/
theorem beginRun_renews {P : Nat → Prop} {op' : Operator} (hr : op.resting = op'.resting)
    (hfit : ∀ p ∈ op.kind.state ++ op.kind.bins, p.stop ≤ f.store.slots)
    (h : f.store.AgreeOn P g.store) :
    (op.beginRun f).2.store.AgreeOn (fun i => P i ∨ ∃ p ∈ op.kind.state ++ op.kind.bins, i ∈ p)
      (op'.beginRun g).2.store := by
  have hcleared : op'.kind.cleared = op.kind.cleared := by
    rw [← Kind.cleared_resting, ← Kind.cleared_resting op.kind]
    exact congrArg (fun k : Operator => k.kind.cleared) hr.symm
  rw [beginRun_store, beginRun_store, hcleared]
  refine (h.fillAll_covers fun x hx => hfit x.1 (mem_spans_cleared hx)).mono fun i hi => ?_
  rw [← Kind.spans_cleared] at hi
  simpa only [List.mem_map, exists_exists_and_eq_and] using hi

theorem endRun_agree (h : f.AgreeOn R g) : (op.endRun f).1 = (op.endRun g).1 ∧
    (op.endRun f).2.AgreeOn R (op.endRun g).2 := by
  obtain ⟨inputs, outputs, gate, kind⟩ := op
  obtain ⟨hs, hl, hb, hv⟩ := h
  cases kind with
  | exportSink s =>
    obtain ⟨hsink, hvol⟩ := s.endRun_agree hv
    simp only [endRun, hsink, true_and]
    exact ⟨hs, hl, hb, hvol⟩
  | _ => exact ⟨rfl, hs, hl, hb, hv⟩

theorem endRun_frame (hR : R.Beyond op) (f : Frame) : f.AgreeOn R (op.endRun f).2 := by
  obtain ⟨inputs, outputs, gate, kind⟩ := op
  cases kind with
  | exportSink s => exact ⟨.refl _ _, rfl, fun _ _ => rfl, s.agree_endRun f.volume hR.files⟩
  | _ => exact .refl R f

/-- A tick looks at what the operator remembers, and at nothing else. -/
theorem tick_eq {s t : Store} (h : ∀ p ∈ op.kind.memory, s.values p = t.values p) :
    op.tick s = op.tick t := by
  obtain ⟨inputs, outputs, gate, kind⟩ := op
  cases kind with
  | rateMonitor m =>
    have hm := h m.hitCounts List.mem_cons_self
    simp only [tick, RateMonitor.tick, hm]
  | _ => rfl

end Reach

/-- Operators open files at the beginning of a run only. -/
theorem opens_step {op : Operator} {f : Frame} {place : List String}
    (h : (op.step f).1.Opens place) : op.Opens place := by
  obtain ⟨k, hk, rfl⟩ := h
  refine ⟨k, ?_, rfl⟩
  have hrest := congrArg kind (op.resting_step f)
  obtain ⟨inputs, outputs, gate, kind⟩ := op
  cases kind with
  | exportSink s =>
    rw [step] at hk
    split at hk
    · exact ExportSink.handle?_step hk
    · exact hk
  | _ =>
    -- a kind that is no sink does not become one
    simp only [kind_resting] at hrest
    generalize (step _ f).1.kind = l at hk hrest
    cases l with
    | exportSink s => cases hrest
    | _ => cases hk

theorem opens_endRun {op : Operator} {f : Frame} {place : List String}
    (h : (op.endRun f).1.Opens place) : op.Opens place := by
  obtain ⟨inputs, outputs, gate, kind⟩ := op
  cases kind with
  | exportSink s =>
    obtain ⟨k, hk, rfl⟩ := h
    exact ⟨k, s.handle?_endRun hk, rfl⟩
  | _ => exact h

theorem opens_tick {op : Operator} {s : Store} {place : List String} (h : (op.tick s).Opens place) :
    op.Opens place := by
  obtain ⟨inputs, outputs, gate, kind⟩ := op
  cases kind <;> exact h

end Operator

end Readout
