import Readout.Proofs.Arena.Tied
import Readout.Proofs.Operator.Phase

/-!
# Operators in other places

Two operators are tied when they are of one kind with the same parameters, and all that they read,
own and keep is tied. What such operators do to tied frames is the same, so they and their frames
stay tied. Files do not matter here: what a sink has written is not seen by any operator.
-/
namespace Readout

variable {R R' B B' : Ties}

/-- Frames with tied contents and tied bits, both of which increment bins at once. -/
structure Frame.Tied (R B : Ties) (f g : Frame) : Prop where
  store : f.store.Tied R g.store
  bits : f.bits.Tied B g.bits
  left : f.filler.strategy = .direct
  right : g.filler.strategy = .direct

/-- The same histogram with its bins elsewhere. -/
structure Histogram.Tied (R : Ties) (h k : Histogram) : Prop where
  data : h.data.Tied R k.data
  same : k = { h with data := k.data }

structure PlaneHistogram.Tied (R : Ties) (h k : PlaneHistogram) : Prop where
  data : h.data.Tied R k.data
  same : k = { h with data := k.data }

inductive Kind.Tied (R B : Ties) : Kind → Kind → Prop
  | calibration {p q} (h : p.Tied R q) : Kind.Tied R B (.calibration p) (.calibration q)
  | keepPrevious {p q} (keepValid) (h : p.Tied R q) :
    Kind.Tied R B (.keepPrevious p keepValid) (.keepPrevious q keepValid)
  | difference : Kind.Tied R B .difference .difference
  | arrayMap (mappings) : Kind.Tied R B (.arrayMap mappings) (.arrayMap mappings)
  | equation (e) : Kind.Tied R B (.equation e) (.equation e)
  | aggregate (r w) : Kind.Tied R B (.aggregate r w) (.aggregate r w)
  | rangeFilter (w inverted) : Kind.Tied R B (.rangeFilter w inverted) (.rangeFilter w inverted)
  | rectangleFilter (x y junction) :
    Kind.Tied R B (.rectangleFilter x y junction) (.rectangleFilter x y junction)
  | conditionFilter (inverted) :
    Kind.Tied R B (.conditionFilter inverted) (.conditionFilter inverted)
  | scalerOverflow {p q p' q'} (hl : p.Tied R q) (hv : p'.Tied R q') :
    Kind.Tied R B (.scalerOverflow p p') (.scalerOverflow q q')
  | expression (e) : Kind.Tied R B (.expression e) (.expression e)
  | histograms {hs ks} (h : List.Forall₂ (Histogram.Tied R) hs ks) :
    Kind.Tied R B (.histograms hs) (.histograms ks)
  | planeHistogram {h k : PlaneHistogram} (hk : h.Tied R k) :
    Kind.Tied R B (.planeHistogram h) (.planeHistogram k)
  | rateMonitor (samplers mode) {p q} (h : p.Tied R q) :
    Kind.Tied R B (.rateMonitor ⟨samplers, mode, p⟩) (.rateMonitor ⟨samplers, mode, q⟩)
  | exportSink (s t) : Kind.Tied R B (.exportSink s) (.exportSink t)
  | intervalCondition (intervals) {i j} (h : ∀ k < intervals.length, B (i + k) (j + k)) :
    Kind.Tied R B (.intervalCondition intervals i) (.intervalCondition intervals j)
  | rectangleCondition (x y) {i j} (h : B i j) :
    Kind.Tied R B (.rectangleCondition x y i) (.rectangleCondition x y j)
  | polygonCondition (polygon) {i j} (h : B i j) :
    Kind.Tied R B (.polygonCondition polygon i) (.polygonCondition polygon j)

structure Operator.Tied (R B : Ties) (op op' : Operator) : Prop where
  inputs : List.Forall₂ (Pipe.Tied R) op.inputs op'.inputs
  outputs : List.Forall₂ (Pipe.Tied R) op.outputs op'.outputs
  gate : Option.Rel B op.gate op'.gate
  kind : op.kind.Tied R B op'.kind

theorem Histogram.Tied.mono {h k : Histogram} (hk : h.Tied R k) (hR : ∀ i j, R i j → R' i j) :
    h.Tied R' k :=
  ⟨hk.data.mono hR, hk.same⟩

theorem Kind.Tied.mono {k l : Kind} (h : k.Tied R B l) (hR : ∀ i j, R i j → R' i j)
    (hB : ∀ i j, B i j → B' i j) : k.Tied R' B' l := by
  cases h with
  | calibration h => exact .calibration (h.mono hR)
  | keepPrevious keepValid h => exact .keepPrevious keepValid (h.mono hR)
  | scalerOverflow hl hv => exact .scalerOverflow (hl.mono hR) (hv.mono hR)
  | histograms h => exact .histograms (h.imp fun _ _ hk => hk.mono hR)
  | planeHistogram hk => exact .planeHistogram ⟨hk.data.mono hR, hk.same⟩
  | rateMonitor samplers mode h => exact .rateMonitor samplers mode (h.mono hR)
  | intervalCondition intervals h => exact .intervalCondition intervals fun k hk => hB _ _ (h k hk)
  | rectangleCondition x y h => exact .rectangleCondition x y (hB _ _ h)
  | polygonCondition polygon h => exact .polygonCondition polygon (hB _ _ h)
  | difference => exact .difference
  | arrayMap mappings => exact .arrayMap mappings
  | equation e => exact .equation e
  | aggregate r w => exact .aggregate r w
  | rangeFilter w inverted => exact .rangeFilter w inverted
  | rectangleFilter x y junction => exact .rectangleFilter x y junction
  | conditionFilter inverted => exact .conditionFilter inverted
  | expression e => exact .expression e
  | exportSink s t => exact .exportSink s t

theorem Operator.Tied.mono {op op' : Operator} (h : op.Tied R B op')
    (hR : ∀ i j, R i j → R' i j) (hB : ∀ i j, B i j → B' i j) : op.Tied R' B' op' := by
  refine ⟨h.inputs.imp fun _ _ hp => hp.mono hR, h.outputs.imp fun _ _ hp => hp.mono hR, ?_,
    h.kind.mono hR hB⟩
  match op.gate, op'.gate, h.gate with
  | _, _, .some hb => exact .some (hB _ _ hb)
  | _, _, .none => exact .none

namespace Frame.Tied

variable {f g : Frame}

theorem values_eq (h : f.Tied R B g) {p q : Pipe} (hp : p.Tied R q) : f.values p = g.values q :=
  h.store.values_eq hp.data

theorem map_values_eq (h : f.Tied R B g) {ps qs : List Pipe}
    (hp : List.Forall₂ (Pipe.Tied R) ps qs) : ps.map f.values = qs.map g.values :=
  map_eq_of_forall₂ hp fun _ _ hpq => h.values_eq hpq

theorem assign (h : f.Tied R B g) {p q : Span} (hp : p.Tied R q) (vs : List Value) :
    Tied R B { f with store := f.store.assign p vs } { g with store := g.store.assign q vs } :=
  ⟨h.store.assign hp vs, h.bits, h.left, h.right⟩

theorem write (h : f.Tied R B g) {p q : Pipe} (hp : p.Tied R q) (vs : List Value) :
    (f.write p vs).Tied R B (g.write q vs) :=
  h.assign hp.data vs

theorem writeFirst (h : f.Tied R B g) {ps qs : List Pipe}
    (hp : List.Forall₂ (Pipe.Tied R) ps qs) (vs : List Value) :
    (f.writeFirst ps vs).Tied R B (g.writeFirst qs vs) := by
  cases hp with
  | nil => exact h
  | cons hpq _ => exact h.write hpq vs

theorem writeEach (h : f.Tied R B g) {ps qs : List Pipe}
    (hp : List.Forall₂ (Pipe.Tied R) ps qs) (vss : List (List Value)) :
    (f.writeEach ps vss).Tied R B (g.writeEach qs vss) := by
  induction hp generalizing f g vss with
  | nil => exact h
  | cons hpq _ ih =>
    cases vss with
    | nil => exact h
    | cons vs vss => exact ih (h.write hpq vs) vss

theorem invalidate (h : f.Tied R B g) {ps qs : List Pipe}
    (hp : List.Forall₂ (Pipe.Tied R) ps qs) : (f.invalidate ps).Tied R B (g.invalidate qs) := by
  induction hp generalizing f g with
  | nil => exact h
  | @cons p q _ _ hpq _ ih =>
    have hnext : Tied R B { f with store := f.store.invalidate p.data }
        { g with store := g.store.invalidate q.data } :=
      ⟨h.store.fill hpq.data _, h.bits, h.left, h.right⟩
    exact ih hnext

theorem setBits (h : f.Tied R B g) {i j : Nat} {bs : List Bool}
    (hB : ∀ k < bs.length, B (i + k) (j + k)) : (f.setBits i bs).Tied R B (g.setBits j bs) := by
  induction bs generalizing f g i j with
  | nil => exact h
  | cons b bs ih =>
    have hnext : Tied R B { f with bits := f.bits.set i b } { g with bits := g.bits.set j b } :=
      ⟨h.store, h.bits.set (hB 0 (Nat.zero_lt_succ _)) b, h.left, h.right⟩
    refine ih hnext fun k hk => ?_
    have hk := hB (k + 1) (Nat.succ_lt_succ hk)
    rwa [← Nat.add_assoc, ← Nat.add_assoc, Nat.add_right_comm, Nat.add_right_comm j] at hk

/-- A bin that is incremented at once. -/
theorem fill (h : f.Tied R B g) {p q : Span} (hp : p.Tied R q) (bin : Nat) :
    Tied R B ((Change.fill p bin).apply f) ((Change.fill q bin).apply g) := by
  have hleft := f.filler.increment_direct h.left f.store p bin
  have hright := g.filler.increment_direct h.right g.store q bin
  refine ⟨?_, h.bits, (congrArg Filler.strategy hleft).trans h.left,
    (congrArg Filler.strategy hright).trans h.right⟩
  rw [Change.apply, Change.apply, Filler.increment, Filler.increment]
  have hcells := h.store.element hp bin
  generalize p.element? bin = c at hcells ⊢
  generalize q.element? bin = c' at hcells ⊢
  cases hcells with
  | none => exact h.store
  | some hcell =>
    simp only [h.left, h.right, reduceCtorEq, false_and, if_false]
    exact h.store.increment hcell 0

theorem count (h : f.Tied R B g) {p q : Span} (hp : p.Tied R q) (i : Nat) :
    Tied R B ((Change.count p i).apply f) ((Change.count q i).apply g) :=
  ⟨h.store.increment hp i, h.bits, h.left, h.right⟩

end Frame.Tied

/-- Increments of tied bins and counters. -/
inductive Change.Tied (R : Ties) : Change → Change → Prop
  | fill {p q} (h : p.Tied R q) (bin) : Change.Tied R (.fill p bin) (.fill q bin)
  | count {p q} (h : p.Tied R q) (i) : Change.Tied R (.count p i) (.count q i)

theorem Change.applyAll_tied {cs ds : List Change} (h : List.Forall₂ (Change.Tied R) cs ds)
    {f g : Frame} (hf : f.Tied R B g) : (applyAll cs f).Tied R B (applyAll ds g) := by
  induction h generalizing f g with
  | nil => exact hf
  | cons hcd _ ih =>
    cases hcd with
    | fill hp bin => exact ih (hf.fill hp bin)
    | count hp i => exact ih (hf.count hp i)

namespace Histogram

theorem noted_tied {h k : Histogram} (hk : h.Tied R k) (x : Value) :
    (h.noted x).1.Tied R (k.noted x).1 ∧
      List.Forall₂ (Change.Tied R) (h.noted x).2 (k.noted x).2 := by
  obtain ⟨q, hq, rfl⟩ : ∃ q, h.data.Tied R q ∧ k = { h with data := q } := ⟨_, hk.data, hk.same⟩
  have htarget : target { h with data := q } x = h.target x := by
    simp only [target, bins, hq.length_eq]
  rw [noted, noted, htarget]
  split
  · exact ⟨hk, .nil⟩
  · rcases h.target x with _ | _ | i
    · exact ⟨⟨hq, rfl⟩, .nil⟩
    · exact ⟨⟨hq, rfl⟩, .nil⟩
    · exact ⟨⟨hq, rfl⟩, .cons (.fill hq i) .nil⟩

theorem notedEach_tied {hs ks : List Histogram} (h : List.Forall₂ (Tied R) hs ks)
    (vs : List Value) : List.Forall₂ (Tied R) (notedEach hs vs).1 (notedEach ks vs).1 ∧
      List.Forall₂ (Change.Tied R) (notedEach hs vs).2 (notedEach ks vs).2 := by
  induction h generalizing vs with
  | nil => exact ⟨.nil, .nil⟩
  | cons hk h ih =>
    cases vs with
    | nil => exact ⟨.cons hk h, .nil⟩
    | cons v vs =>
      obtain ⟨hops, hchanges⟩ := ih vs
      rw [notedEach, notedEach]
      by_cases hv : v.isValid = true
      · obtain ⟨hn, hc⟩ := noted_tied hk v
        simp only [if_pos hv]
        exact ⟨.cons hn hops, List.rel_append hc hchanges⟩
      · simp only [if_neg hv]
        exact ⟨.cons hk hops, hchanges⟩

end Histogram

theorem PlaneHistogram.noted_tied {h k : PlaneHistogram} (hk : h.Tied R k) (x y : Value) :
    (h.noted x y).1.Tied R (k.noted x y).1 ∧
      List.Forall₂ (Change.Tied R) (h.noted x y).2 (k.noted x y).2 := by
  obtain ⟨q, hq, rfl⟩ : ∃ q, h.data.Tied R q ∧ k = { h with data := q } := ⟨_, hk.data, hk.same⟩
  rw [noted, noted]
  split
  · exact ⟨hk, .nil⟩
  · dsimp only
    cases h.x.bin h.xBins x <;> cases h.y.bin h.yBins y
    case index.index i j => exact ⟨⟨hq, rfl⟩, .cons (.fill hq _) .nil⟩
    all_goals exact ⟨⟨hq, rfl⟩, .nil⟩

theorem RateMonitor.counts_tied {p q : Span} (h : p.Tied R q) (i : Nat) (vs : List Value) :
    List.Forall₂ (Change.Tied R) (counts p i vs) (counts q i vs) := by
  induction vs generalizing i with
  | nil => exact .nil
  | cons v vs ih =>
    rw [counts, counts]
    split
    · exact .cons (.count h i) (ih (i + 1))
    · exact ih (i + 1)

namespace Operator

variable {op op' : Operator} {f g : Frame}

theorem Tied.inputValues_eq (h : op.Tied R B op') (hf : f.Tied R B g) :
    op.inputValues f = op'.inputValues g :=
  hf.map_values_eq h.inputs

/-- What an open operator does to its frame, it does to a tied one. -/
theorem Tied.compute (h : op.Tied R B op') (hf : f.Tied R B g) :
    (op.compute f).1.Tied R B (op'.compute g).1 ∧ (op.compute f).2.Tied R B (op'.compute g).2 := by
  have hins := h.inputValues_eq hf
  have hfirst : op.firstInput.Tied R op'.firstInput := Pipe.tied_headD h.inputs
  have hout : op.firstOutput.Tied R op'.firstOutput := Pipe.tied_headD h.outputs
  have hvalues := fun {p q : Span} => hf.store.values_eq (p := p) (q := q)
  have hop := h
  obtain ⟨inputs, outputs, gate, kind⟩ := op
  obtain ⟨inputs', outputs', gate', kind'⟩ := op'
  obtain ⟨hi, ho, hg, hk⟩ := h
  dsimp only at hi ho hg hk
  have hwrite := hf.writeFirst ho
  cases hk with
  | calibration hp =>
    refine ⟨hop, ?_⟩
    simp only [Operator.compute, ← hins, ← hvalues hfirst.lower, ← hvalues hout.lower, ← hvalues hp]
    exact hwrite _
  | keepPrevious keepValid hp =>
    refine ⟨hop, ?_⟩
    simp only [Operator.compute, ← hins, ← hvalues hp]
    exact (hwrite _).assign hp _
  | difference =>
    simp only [Operator.compute, ← hins]
    split
    · exact ⟨hop, hwrite _⟩
    · exact ⟨hop, hf⟩
  | arrayMap mappings =>
    simp only [Operator.compute, ← hins]
    exact ⟨hop, hwrite _⟩
  | equation e =>
    simp only [Operator.compute, ← hins]
    split
    · exact ⟨hop, hwrite _⟩
    · exact ⟨hop, hf⟩
  | aggregate r w =>
    simp only [Operator.compute, ← hins, ← hvalues hfirst.lower, ← hvalues hfirst.upper]
    exact ⟨hop, hwrite _⟩
  | rangeFilter w inverted =>
    simp only [Operator.compute, ← hins]
    exact ⟨hop, hwrite _⟩
  | rectangleFilter x y junction =>
    simp only [Operator.compute, ← hins]
    split
    · exact ⟨hop, hwrite _⟩
    · exact ⟨hop, hf⟩
  | conditionFilter inverted =>
    simp only [Operator.compute, ← hins]
    split
    · exact ⟨hop, hwrite _⟩
    · exact ⟨hop, hf⟩
  | scalerOverflow hl hv =>
    refine ⟨hop, ?_⟩
    simp only [Operator.compute, ← hins, ← hvalues hl, ← hvalues hv, ← hvalues hfirst.upper]
    exact ((hwrite _).assign hv _).assign hl _
  | expression e =>
    simp only [Operator.compute, ← hins, ← hf.map_values_eq ho]
    split
    · exact ⟨hop, hf.writeEach ho _⟩
    · exact ⟨⟨hi, ho, hg, .expression _⟩, hf.invalidate ho⟩
  | histograms hh =>
    simp only [Operator.compute, ← hins, Histogram.fillEach_eq]
    obtain ⟨hnoted, hchanges⟩ := Histogram.notedEach_tied hh
      ((inputValues ⟨inputs, outputs, gate, .histograms _⟩ f).headD [])
    have hfills := Change.applyAll_tied hchanges hf
    exact ⟨⟨hi, ho, hg, .histograms hnoted⟩, hfills.store, hf.bits, hfills.left, hfills.right⟩
  | planeHistogram hh =>
    simp only [Operator.compute, ← hins]
    split
    · next a b _ =>
      obtain ⟨hnoted, hchanges⟩ := PlaneHistogram.noted_tied hh a b
      have hfills := Change.applyAll_tied hchanges hf
      simp only [PlaneHistogram.fill_eq]
      split
      · exact ⟨⟨hi, ho, hg, .planeHistogram hnoted⟩, hfills.store, hf.bits, hfills.left,
          hfills.right⟩
      · exact ⟨hop, hf⟩
    · exact ⟨hop, hf⟩
  | rateMonitor samplers mode hp =>
    simp only [Operator.compute, ← hins]
    cases mode with
    | precalculated => exact ⟨⟨hi, ho, hg, .rateMonitor _ _ hp⟩, hf⟩
    | counter => exact ⟨⟨hi, ho, hg, .rateMonitor _ _ hp⟩, hf⟩
    | flow =>
      simp only [RateMonitor.step, RateMonitor.countValid_eq]
      exact ⟨hop, Change.applyAll_tied (RateMonitor.counts_tied hp 0 _) hf⟩
  | exportSink s t =>
    exact ⟨⟨hi, ho, hg, .exportSink _ _⟩, hf.store, hf.bits, hf.left, hf.right⟩
  | intervalCondition intervals hb =>
    simp only [Operator.compute, ← hins]
    refine ⟨hop, hf.setBits fun k hk => hb k ?_⟩
    rw [List.length_zipWith] at hk
    omega
  | rectangleCondition x y hb =>
    simp only [Operator.compute, ← hins]
    split
    · exact ⟨hop, hf.setBits fun k hk => (Nat.lt_one_iff.1 hk).symm ▸ hb⟩
    · exact ⟨hop, hf⟩
  | polygonCondition polygon hb =>
    simp only [Operator.compute, ← hins]
    split
    · exact ⟨hop, hf.setBits fun k hk => (Nat.lt_one_iff.1 hk).symm ▸ hb⟩
    · exact ⟨hop, hf⟩

theorem Tied.isOpen_eq (h : op.Tied R B op') (hf : f.Tied R B g) :
    op.isOpen f.bits = op'.isOpen g.bits := by
  have hgate := h.gate
  rw [isOpen, isOpen]
  generalize op.gate = b at hgate ⊢
  generalize op'.gate = b' at hgate ⊢
  cases hgate with
  | none => rfl
  | some hb => exact hf.bits.test_eq _ _ hb

theorem Tied.step (h : op.Tied R B op') (hf : f.Tied R B g) :
    (op.step f).1.Tied R B (op'.step g).1 ∧ (op.step f).2.Tied R B (op'.step g).2 := by
  rw [Operator.step, Operator.step, h.isOpen_eq hf]
  split
  · exact h.compute hf
  · exact ⟨h, hf.invalidate h.outputs⟩

/-- What an operator becomes when a run begins does not depend on any contents. -/
theorem Tied.beginRun (h : op.Tied R B op') (f g : Frame) :
    (op.beginRun f).1.Tied R B (op'.beginRun g).1 := by
  have hop := h
  obtain ⟨inputs, outputs, gate, kind⟩ := op
  obtain ⟨inputs', outputs', gate', kind'⟩ := op'
  obtain ⟨hi, ho, hg, hk⟩ := h
  dsimp only at hi ho hg hk
  cases hk with
  | histograms hh =>
    refine ⟨hi, ho, hg, ?_⟩
    simp only [Operator.beginRun, Histogram.clearEach_eq]
    refine .histograms (List.rel_map (fun x y hxy => ?_) hh)
    exact ⟨hxy.data, by rw [hxy.same]; rfl⟩
  | planeHistogram hh => exact ⟨hi, ho, hg, .planeHistogram ⟨hh.data, by rw [hh.same]⟩⟩
  | rateMonitor samplers mode hp => exact ⟨hi, ho, hg, .rateMonitor _ mode hp⟩
  | exportSink s t => exact ⟨hi, ho, hg, .exportSink _ _⟩
  | _ => exact hop

theorem Tied.endRun (h : op.Tied R B op') (f g : Frame) :
    (op.endRun f).1.Tied R B (op'.endRun g).1 := by
  have hop := h
  obtain ⟨inputs, outputs, gate, kind⟩ := op
  obtain ⟨inputs', outputs', gate', kind'⟩ := op'
  obtain ⟨hi, ho, hg, hk⟩ := h
  dsimp only at hi ho hg hk
  cases hk with
  | exportSink s t => exact ⟨hi, ho, hg, .exportSink _ _⟩
  | _ => exact hop

theorem store_endRun (op : Operator) (f : Frame) : (op.endRun f).2.store = f.store := by
  obtain ⟨inputs, outputs, gate, kind⟩ := op
  cases kind <;> rfl

theorem Tied.tick {s t : Store} (h : op.Tied R B op') (hs : s.Tied R t) :
    (op.tick s).Tied R B (op'.tick t) := by
  have hop := h
  obtain ⟨inputs, outputs, gate, kind⟩ := op
  obtain ⟨inputs', outputs', gate', kind'⟩ := op'
  obtain ⟨hi, ho, hg, hk⟩ := h
  dsimp only at hi ho hg hk
  cases hk with
  | rateMonitor samplers mode hp =>
    refine ⟨hi, ho, hg, ?_⟩
    simp only [Operator.tick, RateMonitor.tick, hs.values_eq hp]
    cases mode <;> exact .rateMonitor _ _ hp
  | exportSink s t => exact ⟨hi, ho, hg, .exportSink _ _⟩
  | _ => exact hop

end Operator

/-- Tied operators begin a run with the same values in tied spans. -/
theorem Kind.Tied.cleared {k l : Kind} (h : k.Tied R B l) :
    List.Forall₂ (fun x y => x.1.Tied R y.1 ∧ x.2 = y.2) k.cleared l.cleared := by
  cases h with
  | keepPrevious keepValid hp => exact .cons ⟨hp, rfl⟩ .nil
  | scalerOverflow hl hv => exact .cons ⟨hl, rfl⟩ (.cons ⟨hv, rfl⟩ .nil)
  | histograms hh => exact List.rel_map (fun _ _ hxy => ⟨hxy.data, rfl⟩) hh
  | planeHistogram hh => exact .cons ⟨hh.data, rfl⟩ .nil
  | rateMonitor samplers mode hp => exact .cons ⟨hp, rfl⟩ .nil
  | _ => exact .nil

namespace Operator

variable {a a' b b' : Operator}

theorem Tied.ownsBit (h : a.Tied R B a') (hB : B.Unique) {i j : Nat} (hij : B i j)
    (hj : a'.OwnsBit j) : a.OwnsBit i := by
  obtain ⟨inputs, outputs, gate, kind⟩ := a
  obtain ⟨inputs', outputs', gate', kind'⟩ := a'
  obtain ⟨-, -, -, hk⟩ := h
  obtain ⟨first, hf, hl, hu⟩ := hj
  dsimp only at hk hf hl hu
  cases hk with
  | @intervalCondition intervals m n hb =>
    obtain rfl := Option.some.inj hf
    rw [Kind.bitCount] at hu
    have hi := (hB hij (hb (j - n) (by omega))).2 (by omega)
    exact ⟨m, rfl, by omega, by rw [Kind.bitCount]; omega⟩
  | rectangleCondition x y hb =>
    obtain rfl := Option.some.inj hf
    rw [Kind.bitCount] at hu
    obtain rfl := (hB hij hb).2 (by omega)
    exact ⟨_, rfl, Nat.le_refl i, Nat.lt_succ_self i⟩
  | polygonCondition polygon hb =>
    obtain rfl := Option.some.inj hf
    rw [Kind.bitCount] at hu
    obtain rfl := (hB hij hb).2 (by omega)
    exact ⟨_, rfl, Nat.le_refl i, Nat.lt_succ_self i⟩
  | _ => cases hf

/-- Tied operators depend on each other alike. -/
theorem Tied.precedes (ha : a.Tied R B a') (hb : b.Tied R B b') (hR : R.Unique) (hB : B.Unique)
    (h : a'.Precedes b') : a.Precedes b := by
  rcases h with ⟨q, hq, w, hw, hlen, hin⟩ | ⟨j, hj, hown⟩
  · obtain ⟨p, hp, hpq⟩ := exists_of_mem_right ha.outputs hq
    obtain ⟨v, hv, hvw⟩ := exists_of_mem_right hb.inputs hw
    have hlen' : v.length ≠ 0 := hvw.length_eq ▸ hlen
    have hstart : R v.data.offset w.data.offset := hvw.data.cells 0 (Nat.pos_of_ne_zero hlen')
    exact Or.inl ⟨p, hp, v, hv, hlen', (hpq.data.mem_iff hR hstart).2 hin⟩
  · have hgate := hb.gate
    rw [Option.mem_def.1 hj] at hgate
    cases hg : b.gate with
    | none =>
      rw [hg] at hgate
      cases hgate
    | some i =>
      rw [hg] at hgate
      cases hgate with
      | some hij => exact Or.inr ⟨i, hg, ha.ownsBit hB hij hown⟩

end Operator

end Readout
