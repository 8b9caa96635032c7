import Readout.Proofs.Operator.Response

/-!
# What a step reaches

A step looks the same on frames that agree on what it reads, and it changes nothing beyond what
its operator owns: its spans, its bits and the file it has open. So two operators, neither of which
reads what the other one owns, may step in either order.
-/
namespace Readout

/-- The region holds nothing that a step of the operator writes. -/
structure Region.Beyond (R : Region) (op : Operator) : Prop where
  slots : ∀ p ∈ op.written ++ op.kind.bins, ∀ i ∈ p, ¬ R.slots i
  bits : ∀ i, op.OwnsBit i → ¬ R.bits i
  files : ∀ h ∈ op.kind.handle?, ¬ R.files h.place

namespace Operator

variable {R : Region} {F : List String → Prop} {op a b : Operator} {f g : Frame}

theorem changing_subset_owned (op : Operator) : op.written ++ op.kind.bins ⊆ op.owned :=
  List.append_subset.2 ⟨fun _ hp => List.mem_append_left _ (op.written_subset hp),
    List.subset_append_right _ _⟩

theorem cleared_subset (op : Operator) :
    op.kind.state ++ op.kind.bins ⊆ op.written ++ op.kind.bins :=
  List.append_subset.2 ⟨fun _ hp => List.mem_append_left _ (mem_written_state hp),
    List.subset_append_right _ _⟩

theorem Makes.spares {c : Change} (hc : op.Makes c) (hR : R.Beyond op) : c.Spares R := by
  cases c with
  | assign p vs => exact hR.slots p (List.mem_append_left _ hc)
  | invalidate p => exact hR.slots p (List.mem_append_left _ hc)
  | bit i b => exact hR.bits i hc
  | fill p i => exact hR.slots p (List.mem_append_right _ hc)
  | count p i => exact hR.slots p (List.mem_append_left _ hc)
  | write s inputs =>
    intro h hh
    refine hR.files h ?_
    rwa [← show s.handle? = op.kind.handle? from hc]

theorem step_agree (hreads : op.Indistinct f g) (hq : f.filler = g.filler)
    (h : f.AgreeOn R g) : (op.step f).1 = (op.step g).1 ∧
      (op.step f).2.AgreeOn R (op.step g).2 ∧ (op.step f).2.filler = (op.step g).2.filler := by
  obtain ⟨k, cs, hr⟩ := op.exists_response f
  rw [hr.step_eq f (.refl _ f), hr.step_eq g hreads]
  exact ⟨rfl, Change.agree_applyAll h hq cs⟩

theorem step_frame (hR : R.Beyond op) (f : Frame) : f.AgreeOn R (op.step f).2 := by
  obtain ⟨k, cs, hr⟩ := op.exists_response f
  rw [hr.step_eq f (.refl _ f)]
  exact Change.applyAll_frame f fun c hc => (hr.makes c hc).spares hR

theorem resting_step (op : Operator) (f : Frame) : (op.step f).1.resting = op.resting := by
  obtain ⟨k, cs, hr⟩ := op.exists_response f
  rw [hr.step_eq f (.refl _ f)]
  simp only [resting, hr.resting_eq]

theorem filler_step (op : Operator) (hq : f.filler.strategy = .direct) :
    (op.step f).2.filler = f.filler := by
  obtain ⟨k, cs, hr⟩ := op.exists_response f
  rw [hr.step_eq f (.refl _ f)]
  exact Change.filler_applyAll hq cs

/-- What an operator does whose gate is closed. -/
theorem step_closed (hc : op.isOpen f.bits = false) :
    op.step f = (op, f.invalidate op.outputs) := by
  rw [step, hc]
  rfl

/-- A closed step leaves alone what no output holds. -/
theorem agree_invalidate (h : op.owned.Pairwise Span.Apart) (f : Frame) :
    f.AgreeOn ⟨fun i => ∃ p ∈ op.hidden, i ∈ p, fun _ => True, fun _ => True⟩
      (f.invalidate op.outputs) := by
  rw [← Change.applyAll_drop]
  refine Change.applyAll_frame f fun c hc => ?_
  obtain ⟨q, hq, rfl⟩ := List.mem_map.1 hc
  rintro i hi ⟨p, hp, hip⟩
  rw [owned, List.append_assoc] at h
  exact (List.pairwise_append.1 h).2.2 q.data
    (List.mem_flatMap.2 ⟨q, hq, q.data_mem_spans⟩) p hp i hi hip

/-- What a step makes of stores of which it sees the same parts: they agree where they did before,
and on all outputs of the operator. -/
theorem step_renews {P : Nat → Prop} (hsame : op.Indistinct f g) (hb : op.kind.bins = [])
    (hs : op.Shaped) (he : ∀ p ∈ op.inputs ++ op.outputs, p.Even)
    (hn : op.kind.revised op.outputs = []) (hfit : ∀ p ∈ op.outputs, p.data.stop ≤ f.store.slots)
    (h : f.store.AgreeOn P g.store) :
    (op.step f).2.store.AgreeOn (fun i => P i ∨ ∃ p ∈ op.outputs, i ∈ p.data)
      (op.step g).2.store := by
  obtain ⟨k, cs, hr⟩ := op.exists_response f
  rw [hr.step_eq f (.refl _ f), hr.step_eq g hsame]
  have hfills : ∀ c ∈ cs, c.isFill = false := fun c hc => by
    have hzero := countP_fills_eq_zero hr.makes hb
    simpa using List.countP_eq_zero.1 hzero c hc
  refine ⟨(Change.store_applyAll h hfills).slots_eq, fun i hi => ?_⟩
  rcases hi with hi | ⟨p, hp, hi⟩
  · exact (Change.store_applyAll h hfills).read_eq i hi
  · exact (Change.store_applyAll_covers h hfills (hfit p hp) (hr.renewed hs he hn p hp)).read_eq i
      (Or.inr hi)

/-- Of the bits a step sees nothing but its gate, and it writes them alike. -/
theorem step_bits (hsame : op.Indistinct f g) (h : f.bits = g.bits) :
    (op.step f).1 = (op.step g).1 ∧ (op.step f).2.bits = (op.step g).2.bits := by
  obtain ⟨k, cs, hr⟩ := op.exists_response f
  rw [hr.step_eq f (.refl _ f), hr.step_eq g hsame]
  exact ⟨rfl, Change.bits_applyAll h cs⟩

/-- Neither operator reaches what the other one owns or reads. -/
structure Independent (a b : Operator) : Prop where
  owned : ∀ p ∈ a.owned, ∀ q ∈ b.owned, p.Apart q
  bits : a.BitsApart b
  unread : a.Unread b
  unread' : b.Unread a
  gates : ¬ a.Gates b
  gates' : ¬ b.Gates a

theorem Independent.symm (h : a.Independent b) : b.Independent a :=
  ⟨fun q hq p hp => (h.owned p hp q hq).symm, fun i hb ha => h.bits i ha hb, h.unread', h.unread,
    h.gates', h.gates⟩

theorem Independent.reads_beyond (h : a.Independent b) : a.reads.Beyond b := by
  refine ⟨?_, fun i hb hi => h.gates' ⟨i, hi, hb⟩, fun _ _ => id⟩
  rintro p hp i hi ⟨q, hq, hiq⟩
  have hp := b.changing_subset_owned hp
  rcases List.mem_append.1 hq with hq | hq
  · obtain ⟨v, hv, hq⟩ := List.mem_flatMap.1 hq
    exact h.unread' p hp v hv q hq i hi hiq
  · exact h.owned q (List.mem_append_left _ (a.recalled_subset hq)) p hp i hiq hi

def Opens (op : Operator) (place : List String) : Prop := ∃ h ∈ op.kind.handle?, h.place = place

/-- What an operator owns, of files only those that count. -/
def part (op : Operator) (F : List String → Prop) : Region where
  slots i := ∃ p ∈ op.owned, i ∈ p
  bits := op.OwnsBit
  files p := F p ∧ op.Opens p

def rest (op : Operator) (F : List String → Prop) : Region where
  slots i := ¬ ∃ p ∈ op.owned, i ∈ p
  bits i := ¬ op.OwnsBit i
  files p := F p ∧ ¬ op.Opens p

theorem rest_beyond (op : Operator) (F : List String → Prop) : (op.rest F).Beyond op :=
  ⟨fun p hp _ hi hn => hn ⟨p, op.changing_subset_owned hp, hi⟩, fun _ hb hn => hn hb,
    fun h hh hn => hn.2 ⟨h, hh, rfl⟩⟩

theorem Independent.part_beyond (h : a.Independent b)
    (hF : ∀ p, F p → a.Opens p → ¬ b.Opens p) : (a.part F).Beyond b := by
  refine ⟨?_, fun i hb ha => h.bits i ha hb, fun k hk hp => hF _ hp.1 hp.2 ⟨k, hk, rfl⟩⟩
  rintro p hp i hi ⟨q, hq, hiq⟩
  exact h.owned q hq p (b.changing_subset_owned hp) i hiq hi

theorem agree_whole_of_parts (h : f.AgreeOn (a.part F) g) (h' : f.AgreeOn (a.rest F) g) :
    f.AgreeOn (.whole F) g :=
  h.join h' (fun _ _ => Classical.em _) (fun _ _ => Classical.em _) fun p hp => by
    by_cases ha : a.Opens p
    · exact Or.inl ⟨hp, ha⟩
    · exact Or.inr ⟨hp, ha⟩

/-- Independent operators may step in either order. -/
theorem Independent.step_comm (h : a.Independent b) (hF : ∀ p, F p → a.Opens p → ¬ b.Opens p)
    (hq : f.filler.strategy = .direct) :
    (b.step (a.step f).2).1 = (b.step f).1 ∧ (a.step (b.step f).2).1 = (a.step f).1 ∧
      (b.step (a.step f).2).2.AgreeOn (.whole F) (a.step (b.step f).2).2 := by
  have ha := a.filler_step hq
  have hb := b.filler_step hq
  have hra := step_frame h.reads_beyond f
  have hrb := step_frame h.symm.reads_beyond f
  have hpa := step_frame (h.part_beyond hF) f
  have hpb := step_frame (h.part_beyond hF) (a.step f).2
  have hsa := step_frame (a.rest_beyond F) f
  have hsb := step_frame (a.rest_beyond F) (b.step f).2
  obtain ⟨hopa, hfa, -⟩ := step_agree hra.indistinct hb.symm hpa
  obtain ⟨hopb, hfb, -⟩ := step_agree hrb.indistinct ha.symm hsa
  -- what the first operator owns is not touched by the second one, and the other way around
  have hpart := hpb.symm.trans hfa
  have hrest := hfb.symm.trans hsb
  exact ⟨hopb.symm, hopa.symm, agree_whole_of_parts hpart hrest⟩

end Operator

end Readout
