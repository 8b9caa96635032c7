import Readout.Proofs.Operator.Change

/-!
# What a step can do

A step is a sequence of changes that belong to the operator. Which changes these are, and what
becomes of the operator, is decided by what the operator reads: its inputs, its own pipes and
memory, its gate bit, and the sort of the file that it has open. Bins are incremented without being
looked at.
-/
namespace Readout

namespace Change

def first (outputs : List Pipe) (vs : List Value) : List Change :=
  (outputs.take 1).map fun p => assign p.data vs

def each (outputs : List Pipe) (vss : List (List Value)) : List Change :=
  (outputs.zip vss).map fun (p, vs) => assign p.data vs

def drop (outputs : List Pipe) : List Change := outputs.map fun p => invalidate p.data

def bitsFrom (first : Nat) : List Bool → List Change
  | [] => []
  | b :: rest => bit first b :: bitsFrom (first + 1) rest

theorem applyAll_first (outputs : List Pipe) (vs : List Value) (f : Frame) :
    applyAll (first outputs vs) f = f.writeFirst outputs vs := by
  cases outputs <;> rfl

theorem applyAll_each (outputs : List Pipe) (vss : List (List Value)) (f : Frame) :
    applyAll (each outputs vss) f = f.writeEach outputs vss := by
  rw [applyAll, each, List.foldl_map]
  rfl

theorem applyAll_drop (outputs : List Pipe) (f : Frame) :
    applyAll (drop outputs) f = f.invalidate outputs := by
  induction outputs generalizing f with
  | nil => rfl
  | cons p outputs ih => exact ih _

theorem applyAll_bitsFrom (first : Nat) (bs : List Bool) (f : Frame) :
    applyAll (bitsFrom first bs) f = f.setBits first bs := by
  induction bs generalizing first f with
  | nil => rfl
  | cons b bs ih => exact ih _ _

theorem mem_bitsFrom {first : Nat} {bs : List Bool} {c : Change} (h : c ∈ bitsFrom first bs) :
    ∃ i b, c = bit i b ∧ first ≤ i ∧ i < first + bs.length := by
  induction bs generalizing first with
  | nil => cases h
  | cons b bs ih =>
    rcases List.mem_cons.1 h with rfl | h
    · exact ⟨first, b, rfl, Nat.le_refl _, by simp⟩
    · obtain ⟨i, b', rfl, hl, hu⟩ := ih h
      exact ⟨i, b', rfl, by omega, by rw [List.length_cons]; omega⟩

end Change

theorem Change.applyAll_increments {cs : List Change}
    (h : ∀ c ∈ cs, ∃ p i, c = fill p i ∨ c = count p i) (f : Frame) :
    applyAll cs f =
      { f with filler := (applyAll cs f).filler, store := (applyAll cs f).store } := by
  induction cs generalizing f with
  | nil => rfl
  | cons c cs ih =>
    obtain ⟨⟨p, i, hc⟩, hcs⟩ := List.forall_mem_cons.1 h
    rw [applyAll_cons, ih hcs]
    rcases hc with rfl | rfl <;> rfl

namespace Histogram

/-- What becomes of a histogram that is filled, and the bin that it asks for. -/
def noted (h : Histogram) (x : Value) : Histogram × List Change :=
  if x.isNaN then (h, [])
  else
    match h.target x with
    | .under => ({ h with underflow := h.underflow + Value.one }, [])
    | .over => ({ h with overflow := h.overflow + Value.one }, [])
    | .index i => ({ h with entries := h.entries + Value.one }, [.fill h.data i])

def notedEach : List Histogram → List Value → List Histogram × List Change
  | h :: hs, v :: vs =>
    let (h, cs) := if v.isValid then h.noted v else (h, [])
    let (hs, ds) := notedEach hs vs
    (h :: hs, cs ++ ds)
  | hs, _ => (hs, [])

def blank (h : Histogram) : Histogram := ⟨h.data, h.axis, h.factor, .zero, .zero, .zero⟩

theorem fill_eq (h : Histogram) (x : Value) (f : Frame) :
    h.fill x f.filler f.store = ((h.noted x).1, (Change.applyAll (h.noted x).2 f).filler,
      (Change.applyAll (h.noted x).2 f).store) := by
  rw [fill, noted]
  split
  · rfl
  · cases h.target x <;> rfl

theorem fillEach_eq (hs : List Histogram) (vs : List Value) (f : Frame) :
    fillEach hs vs f.filler f.store = ((notedEach hs vs).1,
      (Change.applyAll (notedEach hs vs).2 f).filler,
      (Change.applyAll (notedEach hs vs).2 f).store) := by
  induction hs generalizing vs f with
  | nil => rfl
  | cons h hs ih =>
    cases vs with
    | nil => rfl
    | cons v vs =>
      by_cases hv : v.isValid = true
      · simp only [fillEach, notedEach, if_pos hv, fill_eq, Change.applyAll_append,
          ih vs (Change.applyAll (h.noted v).2 f)]
      · simp only [fillEach, notedEach, if_neg hv, List.nil_append, ih vs f]

/-- A value asks for at most one bin, and it is a bin of the histogram. -/
theorem noted_spec (h : Histogram) (x : Value) :
    (h.noted x).1.blank = h.blank ∧ (h.noted x).2.length ≤ 1 ∧
      ∀ c ∈ (h.noted x).2, ∃ i, c = .fill h.data i := by
  rw [noted]
  split
  · exact ⟨rfl, Nat.zero_le 1, by simp⟩
  · rcases h.target x with - | - | i
    · exact ⟨rfl, Nat.zero_le 1, by simp⟩
    · exact ⟨rfl, Nat.zero_le 1, by simp⟩
    · exact ⟨rfl, Nat.le_refl 1, by simp⟩

theorem notedEach_spec (hs : List Histogram) (vs : List Value) :
    (notedEach hs vs).1.map blank = hs.map blank ∧ (notedEach hs vs).2.length ≤ hs.length ∧
      ∀ c ∈ (notedEach hs vs).2, ∃ h ∈ hs, ∃ i, c = .fill h.data i := by
  induction hs generalizing vs with
  | nil => exact ⟨rfl, Nat.le_refl 0, by simp [notedEach]⟩
  | cons h hs ih =>
    cases vs with
    | nil => exact ⟨rfl, Nat.zero_le _, by simp [notedEach]⟩
    | cons v vs =>
      obtain ⟨hblank, hlen, hmem⟩ := ih vs
      have hv : ((if v.isValid then h.noted v else (h, [])).1.blank = h.blank) ∧
          (if v.isValid then h.noted v else (h, [])).2.length ≤ 1 ∧
            ∀ c ∈ (if v.isValid then h.noted v else (h, [])).2, ∃ i, c = .fill h.data i := by
        split
        · exact h.noted_spec v
        · exact ⟨rfl, Nat.zero_le 1, by simp⟩
      rw [notedEach]
      refine ⟨?_, ?_, fun c hc => ?_⟩
      · simp only [List.map_cons, hblank, hv.1]
      · simp only [List.length_append, List.length_cons]
        omega
      · rcases List.mem_append.1 hc with hc | hc
        · obtain ⟨i, rfl⟩ := hv.2.2 c hc
          exact ⟨h, List.mem_cons_self, i, rfl⟩
        · obtain ⟨k, hk, i, rfl⟩ := hmem c hc
          exact ⟨k, List.mem_cons_of_mem h hk, i, rfl⟩

end Histogram

namespace PlaneHistogram

def noted (h : PlaneHistogram) (x y : Value) : PlaneHistogram × List Change :=
  if x.isNaN || y.isNaN then (h, [])
  else
    match h.x.bin h.xBins x, h.y.bin h.yBins y with
    | .index i, .index j =>
      ({ h with entries := h.entries + Value.one }, [.fill h.data (h.cell i j)])
    | .under, _ | _, .under => ({ h with underflow := h.underflow + Value.one }, [])
    | _, _ => ({ h with overflow := h.overflow + Value.one }, [])

theorem fill_eq (h : PlaneHistogram) (x y : Value) (f : Frame) :
    h.fill x y f.filler f.store = ((h.noted x y).1, (Change.applyAll (h.noted x y).2 f).filler,
      (Change.applyAll (h.noted x y).2 f).store) := by
  rw [fill, noted]
  split
  · rfl
  · cases h.x.bin h.xBins x <;> cases h.y.bin h.yBins y <;> rfl

theorem noted_spec (h : PlaneHistogram) (x y : Value) :
    (Kind.planeHistogram (h.noted x y).1).resting = (Kind.planeHistogram h).resting ∧
      (h.noted x y).2.length ≤ 1 ∧ ∀ c ∈ (h.noted x y).2, ∃ i, c = .fill h.data i := by
  rw [noted]
  split
  · exact ⟨rfl, Nat.zero_le 1, by simp⟩
  · cases h.x.bin h.xBins x <;> cases h.y.bin h.yBins y <;>
      exact ⟨rfl, by simp, by simp⟩

end PlaneHistogram

namespace RateMonitor

def counts (p : Span) (i : Nat) : List Value → List Change
  | [] => []
  | v :: vs => (if v.isValid then [.count p i] else []) ++ counts p (i + 1) vs

theorem countValid_eq (p : Span) (i : Nat) (vs : List Value) (f : Frame) :
    { f with store := countValid f.store p i vs } = Change.applyAll (counts p i vs) f := by
  induction vs generalizing i f with
  | nil => rfl
  | cons v vs ih =>
    rw [countValid, counts, Change.applyAll_append, ← ih]
    split <;> rfl

theorem mem_counts {p : Span} {i : Nat} {vs : List Value} {c : Change} (h : c ∈ counts p i vs) :
    ∃ j, c = .count p j := by
  induction vs generalizing i with
  | nil => cases h
  | cons v vs ih =>
    rcases List.mem_append.1 h with h | h
    · split at h
      · exact ⟨i, List.mem_singleton.1 h⟩
      · cases h
    · exact ih h

theorem reset_zipSamplers {φ : Sampler → Value → Sampler}
    (hφ : ∀ s v, (φ s v).reset = s.reset) (ss : List Sampler) (vs : List Value) :
    (zipSamplers φ ss vs).map Sampler.reset = ss.map Sampler.reset := by
  induction ss generalizing vs with
  | nil => cases vs <;> rfl
  | cons s ss ih =>
    cases vs with
    | nil => rfl
    | cons v vs => rw [zipSamplers, List.map_cons, List.map_cons, ih vs, hφ]

theorem reset_sample (s : Sampler) (v : Value) : (s.sample v).1.reset = s.reset := by
  rw [Sampler.sample]
  cases s.lastValue with
  | none => rfl
  | some u =>
    dsimp only
    split <;> rfl

end RateMonitor

def Kind.handle? : Kind → Option FileHandle
  | exportSink s => s.handle?
  | _ => none

namespace Operator

/-- What a step looks at of its own: limits, what is remembered, and outputs that are revised. -/
def recalled (op : Operator) : List Span :=
  op.outputs.flatMap Pipe.limits ++ op.kind.memory ++ op.kind.revised op.outputs

/-- What a step looks at. -/
def reads (op : Operator) : Region where
  slots i := ∃ p ∈ op.inputs.flatMap Pipe.spans ++ op.recalled, i ∈ p
  bits i := op.gate = some i
  files _ := False

def Makes (op : Operator) : Change → Prop
  | .assign p _ | .invalidate p | .count p _ => p ∈ op.written
  | .bit i _ => op.OwnsBit i
  | .fill p _ => p ∈ op.kind.bins
  | .write s _ => s.handle? = op.kind.handle?

/-- Two frames that an operator cannot tell apart. Only sinks look at files, and at their sorts. -/
structure Indistinct (op : Operator) (f g : Frame) : Prop where
  store : f.store.AgreeOn op.reads.slots g.store
  bits : ∀ bit ∈ op.gate, f.bits.test bit = g.bits.test bit
  volume : ∀ s, op.kind = .exportSink s → Volume.AgreeOn (fun _ => False) f.volume g.volume

/-- The changes overwrite all outputs of an operator that starts them afresh, if the sizes of its
pipes are as its maker has checked them. -/
def Renewed (op : Operator) (cs : List Change) : Prop :=
  op.Shaped → (∀ p ∈ op.inputs ++ op.outputs, p.Even) → op.kind.revised op.outputs = [] →
    ∀ p ∈ op.outputs, ∃ c ∈ cs, c.Covers p.data

/-- How an operator steps on a frame, and on all frames that look the same to it. -/
structure Response (op : Operator) (f : Frame) (k : Kind) (cs : List Change) : Prop where
  step_eq : ∀ g, op.Indistinct f g → op.step g = ({ op with kind := k }, Change.applyAll cs g)
  resting_eq : k.resting = op.kind.resting
  makes : ∀ c ∈ cs, op.Makes c
  fills : cs.countP Change.isFill ≤ op.kind.maxFills
  renewed : op.Renewed cs

section Reads

variable {op : Operator} {f g : Frame}

theorem memory_subset_recalled (op : Operator) : op.kind.memory ⊆ op.recalled := fun _ hp =>
  List.mem_append_left _ (List.mem_append_right _ hp)

theorem limits_subset_recalled {v : Pipe} (hv : v ∈ op.outputs) : v.limits ⊆ op.recalled :=
  fun _ hp => List.mem_append_left _ (List.mem_append_left _ (List.mem_flatMap.2 ⟨v, hv, hp⟩))

theorem limits_subset_spans (p : Pipe) : p.limits ⊆ p.spans := List.subset_cons_self _ _

theorem recalled_subset (op : Operator) :
    op.recalled ⊆ op.outputs.flatMap Pipe.spans ++ op.kind.memory := by
  have hdata : op.outputs.map Pipe.data ⊆ op.outputs.flatMap Pipe.spans := by
    intro p hp
    obtain ⟨v, hv, rfl⟩ := List.mem_map.1 hp
    exact List.mem_flatMap.2 ⟨v, hv, v.data_mem_spans⟩
  have hrevised : op.kind.revised op.outputs ⊆ op.outputs.map Pipe.data := by
    cases op.kind with
    | expression e => exact List.Subset.refl _
    | _ => exact List.nil_subset _
  intro p hp
  rcases List.mem_append.1 hp with hp | hp
  · rcases List.mem_append.1 hp with hp | hp
    · obtain ⟨v, hv, hp⟩ := List.mem_flatMap.1 hp
      exact List.mem_append_left _ (List.mem_flatMap.2 ⟨v, hv, limits_subset_spans v hp⟩)
    · exact List.mem_append_right _ hp
  · exact List.mem_append_left _ (hdata (hrevised hp))

theorem written_subset (op : Operator) :
    op.written ⊆ op.outputs.flatMap Pipe.spans ++ op.kind.memory := by
  intro p hp
  rcases List.mem_append.1 hp with hp | hp
  · obtain ⟨v, hv, rfl⟩ := List.mem_map.1 hp
    exact List.mem_append_left _ (List.mem_flatMap.2 ⟨v, hv, v.data_mem_spans⟩)
  · exact List.mem_append_right _ (op.kind.memory_eq ▸ List.mem_append_right _ hp)

theorem mem_written_output {v : Pipe} (hv : v ∈ op.outputs) : v.data ∈ op.written :=
  List.mem_append_left _ (List.mem_map_of_mem hv)

theorem mem_written_state {p : Span} (hp : p ∈ op.kind.state) : p ∈ op.written :=
  List.mem_append_right _ hp

theorem reads_input {v : Pipe} {p : Span} (hv : v ∈ op.inputs) (hp : p ∈ v.spans) :
    ∀ i ∈ p, op.reads.slots i := fun _ hi =>
  ⟨p, List.mem_append_left _ (List.mem_flatMap.2 ⟨v, hv, hp⟩), hi⟩

theorem reads_recalled {p : Span} (hp : p ∈ op.recalled) : ∀ i ∈ p, op.reads.slots i :=
  fun _ hi => ⟨p, List.mem_append_right _ hp, hi⟩

theorem headD_cases (ps : List Pipe) : ps.headD default ∈ ps ∨ ps.headD default = default := by
  cases ps with
  | nil => exact Or.inr rfl
  | cons p ps => exact Or.inl List.mem_cons_self

theorem reads_firstInput {p : Span} (hp : p ∈ op.firstInput.spans) : ∀ i ∈ p, op.reads.slots i := by
  rcases headD_cases op.inputs with h | h
  · exact reads_input h hp
  · intro i hi
    rw [firstInput, h] at hp
    simp only [Pipe.spans, List.mem_cons, List.not_mem_nil, or_false] at hp
    rcases hp with rfl | rfl | rfl <;> exact absurd hi (Span.not_mem_default i)

theorem reads_firstOutput {p : Span} (hp : p ∈ op.firstOutput.limits) :
    ∀ i ∈ p, op.reads.slots i := by
  rcases headD_cases op.outputs with h | h
  · exact reads_recalled (limits_subset_recalled h hp)
  · intro i hi
    rw [firstOutput, h] at hp
    simp only [Pipe.limits, List.mem_cons, List.not_mem_nil, or_false] at hp
    rcases hp with rfl | rfl <;> exact absurd hi (Span.not_mem_default i)

end Reads

end Operator

theorem Frame.AgreeOn.indistinct {op : Operator} {f g : Frame} (h : f.AgreeOn op.reads g) :
    op.Indistinct f g :=
  ⟨h.store, h.bits, fun _ _ => h.volume⟩

namespace Operator.Indistinct

variable {op : Operator} {f g : Frame}

theorem refl (op : Operator) (f : Frame) : op.Indistinct f f := (Frame.AgreeOn.refl _ f).indistinct

theorem inputValues_eq (h : op.Indistinct f g) : op.inputValues g = op.inputValues f :=
  List.map_congr_left fun _ hv =>
    (h.store.values_eq (reads_input hv List.mem_cons_self)).symm

theorem revised_eq (h : op.Indistinct f g) {p : Span} (hp : p ∈ op.kind.revised op.outputs) :
    g.store.values p = f.store.values p :=
  (h.store.values_eq (reads_recalled (List.mem_append_right _ hp))).symm

theorem firstInput_eq (h : op.Indistinct f g) {p : Span} (hp : p ∈ op.firstInput.spans) :
    g.store.values p = f.store.values p :=
  (h.store.values_eq (reads_firstInput hp)).symm

theorem firstOutput_eq (h : op.Indistinct f g) {p : Span} (hp : p ∈ op.firstOutput.limits) :
    g.store.values p = f.store.values p :=
  (h.store.values_eq (reads_firstOutput hp)).symm

theorem memory_eq (h : op.Indistinct f g) {p : Span} (hp : p ∈ op.kind.memory) :
    g.store.values p = f.store.values p :=
  (h.store.values_eq (reads_recalled (memory_subset_recalled op hp))).symm

theorem isOpen_eq (h : op.Indistinct f g) : op.isOpen g.bits = op.isOpen f.bits := by
  cases hg : op.gate with
  | none => simp [isOpen, hg]
  | some bit => simp [isOpen, hg, h.bits bit hg]

end Operator.Indistinct

namespace Operator

variable {op : Operator} {f : Frame}

theorem makes_first (vs : List Value) : ∀ c ∈ Change.first op.outputs vs, op.Makes c := by
  intro c hc
  obtain ⟨p, hp, rfl⟩ := List.mem_map.1 hc
  exact mem_written_output (List.mem_of_mem_take hp)

theorem makes_each (vss : List (List Value)) : ∀ c ∈ Change.each op.outputs vss, op.Makes c := by
  intro c hc
  obtain ⟨⟨p, vs⟩, hp, rfl⟩ := List.mem_map.1 hc
  exact mem_written_output (List.of_mem_zip hp).1

theorem makes_drop : ∀ c ∈ Change.drop op.outputs, op.Makes c := by
  intro c hc
  obtain ⟨p, hp, rfl⟩ := List.mem_map.1 hc
  exact mem_written_output hp

theorem makes_bitsFrom {first : Nat} {bs : List Bool} (hf : op.kind.firstBit? = some first)
    (hl : bs.length ≤ op.kind.bitCount) : ∀ c ∈ Change.bitsFrom first bs, op.Makes c := by
  intro c hc
  obtain ⟨i, b, rfl, hi, hu⟩ := Change.mem_bitsFrom hc
  exact ⟨first, hf, hi, by omega⟩

theorem countP_fills_eq_zero {cs : List Change} (h : ∀ c ∈ cs, op.Makes c)
    (hb : op.kind.bins = []) : cs.countP Change.isFill = 0 := by
  rw [List.countP_eq_zero]
  intro c hc hfill
  cases c with
  | fill p i => exact absurd (h _ hc) (by simp [Makes, hb])
  | _ => cases hfill

theorem renewed_first (op : Operator) (vs : List Value) (cs : List Change)
    (h : op.Shaped → (∀ p ∈ op.inputs ++ op.outputs, p.Even) →
      ∃ o, op.outputs = [o] ∧ o.length ≤ vs.length) :
    op.Renewed (Change.first op.outputs vs ++ cs) := by
  intro hs he _ p hp
  obtain ⟨o, ho, hl⟩ := h hs he
  rw [ho] at hp ⊢
  obtain rfl := List.mem_singleton.1 hp
  exact ⟨_, List.mem_append_left _ List.mem_cons_self, rfl, hl⟩

theorem renewed_drop : op.Renewed (Change.drop op.outputs) := fun _ _ _ p hp =>
  ⟨.invalidate p.data, List.mem_map_of_mem hp, rfl⟩

theorem renewed_of_nil {cs : List Change} (h : op.Shaped → op.outputs = []) : op.Renewed cs := by
  intro hs _ _ p hp
  rw [h hs] at hp
  cases hp

theorem Response.ofOpen (ho : op.isOpen f.bits = true) (hb : op.kind.bins = []) {k : Kind}
    {cs : List Change}
    (hc : ∀ g, op.Indistinct f g →
      op.compute g = ({ op with kind := k }, Change.applyAll cs g))
    (hr : k.resting = op.kind.resting) (hm : ∀ c ∈ cs, op.Makes c) (hn : op.Renewed cs) :
    op.Response f k cs where
  step_eq g hg := by rw [step, hg.isOpen_eq, if_pos ho, hc g hg]
  resting_eq := hr
  makes := hm
  fills := by
    rw [countP_fills_eq_zero hm hb]
    exact Nat.zero_le _
  renewed := hn

theorem Response.ofWrites (ho : op.isOpen f.bits = true) (hb : op.kind.bins = [])
    {cs : List Change}
    (hc : ∀ g, op.Indistinct f g → op.compute g = (op, Change.applyAll cs g))
    (hm : ∀ c ∈ cs, op.Makes c) (hn : op.Renewed cs) : op.Response f op.kind cs :=
  .ofOpen ho hb hc rfl hm hn

theorem Response.ofFirst (ho : op.isOpen f.bits = true) (hb : op.kind.bins = [])
    {vs : Frame → List Value} (hc : ∀ g, op.compute g = (op, g.writeFirst op.outputs (vs g)))
    (hvs : ∀ g, op.Indistinct f g → vs g = vs f)
    (hn : op.Shaped → (∀ p ∈ op.inputs ++ op.outputs, p.Even) →
      ∃ o, op.outputs = [o] ∧ o.length ≤ (vs f).length) :
    op.Response f op.kind (Change.first op.outputs (vs f)) := by
  refine .ofWrites ho hb (fun g hg => ?_) (makes_first _) ?_
  · rw [hc, Change.applyAll_first, hvs g hg]
  · rw [← List.append_nil (Change.first _ _)]
    exact renewed_first op (vs f) [] hn

theorem Response.ofClosed (hc : op.isOpen f.bits = false) :
    op.Response f op.kind (Change.drop op.outputs) where
  step_eq g hg := by
    rw [step, hg.isOpen_eq, hc, Change.applyAll_drop]
    rfl
  resting_eq := rfl
  makes := makes_drop
  fills := by
    have h0 : (Change.drop op.outputs).countP Change.isFill = 0 := by
      rw [List.countP_eq_zero]
      intro c hc
      obtain ⟨p, -, rfl⟩ := List.mem_map.1 hc
      exact Bool.false_ne_true
    rw [h0]
    exact Nat.zero_le _
  renewed := renewed_drop

theorem Response.ofInputs (ho : op.isOpen f.bits = true) (hb : op.kind.bins = [])
    (cs : List (List Value) → List Change)
    (hc : ∀ g, op.compute g = (op, Change.applyAll (cs (op.inputValues g)) g))
    (hm : ∀ ins, ∀ c ∈ cs ins, op.Makes c) (hn : op.Renewed (cs (op.inputValues f))) :
    op.Response f op.kind (cs (op.inputValues f)) :=
  .ofWrites ho hb (fun g hg => by rw [hc, hg.inputValues_eq]) (hm _) hn

/-- Two lists, or nothing that counts. -/
def onTwo (outputs : List Pipe) (F : List Value → List Value → List Value)
    (ins : List (List Value)) : List Change :=
  match ins with
  | [a, b] => Change.first outputs (F a b)
  | _ => []

theorem Response.ofTwo (ho : op.isOpen f.bits = true) (hb : op.kind.bins = [])
    {F : List Value → List Value → List Value}
    (hc : ∀ g, op.compute g =
      match op.inputValues g with
      | [a, b] => (op, g.writeFirst op.outputs (F a b))
      | _ => (op, g))
    (hn : op.Shaped → ∃ a b o, op.inputs = [a, b] ∧ op.outputs = [o] ∧
      ∀ xs ys : List Value, xs.length = a.length → ys.length = b.length →
        o.length ≤ (F xs ys).length) :
    op.Response f op.kind (onTwo op.outputs F (op.inputValues f)) := by
  refine .ofInputs ho hb (onTwo op.outputs F) (fun g => ?_) (fun ins c h => ?_) fun hs he => ?_
  · rw [hc]
    unfold onTwo
    split
    · rw [Change.applyAll_first]
    · rfl
  · unfold onTwo at h
    split at h
    · exact makes_first _ c h
    · cases h
  · obtain ⟨a, b, o, hin, hout, hl⟩ := hn hs
    rw [inputValues, hin]
    simp only [List.map_cons, List.map_nil, onTwo]
    rw [← List.append_nil (Change.first _ _)]
    refine renewed_first op (F _ _) [] (fun _ _ => ⟨o, hout, hl _ _ ?_ ?_⟩) hs he
    · exact f.store.length_values a.data
    · exact f.store.length_values b.data

/-- Two single elements, or nothing that counts. -/
def onPair (F : Value → Value → List Change) (ins : List (List Value)) : List Change :=
  match pairOf? ins with
  | some (a, b) => F a b
  | none => []

theorem Response.ofPair (ho : op.isOpen f.bits = true) (hb : op.kind.bins = [])
    (F : Value → Value → List Change)
    (hc : ∀ g, op.compute g =
      match pairOf? (op.inputValues g) with
      | some (a, b) => (op, Change.applyAll (F a b) g)
      | none => (op, g)) (hm : ∀ a b, ∀ c ∈ F a b, op.Makes c)
    (hn : op.Renewed (onPair F (op.inputValues f))) :
    op.Response f op.kind (onPair F (op.inputValues f)) := by
  refine .ofInputs ho hb (onPair F) (fun g => ?_) (fun ins c h => ?_) hn
  · rw [hc, onPair]
    split <;> rfl
  · rw [onPair] at h
    split at h
    · exact hm _ _ c h
    · cases h

variable {inputs outputs : List Pipe} {gate : Option Nat}

theorem length_zip3 (φ : Value → Value → Value → Value) (as bs cs : List Value) :
    (zip3 φ as bs cs).length = min as.length (min bs.length cs.length) := by
  induction as generalizing bs cs with
  | nil => simp [zip3]
  | cons a as ih =>
    cases bs with
    | nil => simp [zip3]
    | cons b bs =>
      cases cs with
      | nil => simp [zip3]
      | cons c cs =>
        rw [zip3, List.length_cons, ih]
        simp only [List.length_cons]
        omega

theorem length_zip4 (φ : Value → Value → Value → Value → Value) (as bs cs ds : List Value) :
    (zip4 φ as bs cs ds).length =
      min as.length (min bs.length (min cs.length ds.length)) := by
  induction as generalizing bs cs ds with
  | nil => simp [zip4]
  | cons a as ih =>
    cases bs with
    | nil => simp [zip4]
    | cons b bs =>
      cases cs with
      | nil => simp [zip4]
      | cons c cs =>
        cases ds with
        | nil => simp [zip4]
        | cons d ds =>
          rw [zip4, List.length_cons, ih]
          simp only [List.length_cons]
          omega

theorem Kind.length_conditioned (inverted : Bool) (data condition : List Value) :
    (Kind.conditioned inverted data condition).length = data.length := by
  rw [Kind.conditioned]
  split
  · next h => rw [List.length_zipWith, h, Nat.min_self]
  · exact List.length_map _

theorem response_calibration {factors : Span}
    (ho : isOpen ⟨inputs, outputs, gate, .calibration factors⟩ f.bits = true) :
    ∃ k cs, Response ⟨inputs, outputs, gate, .calibration factors⟩ f k cs := by
  refine ⟨_, _, .ofFirst ho rfl (fun g => rfl) (fun g hg => ?_) fun hs he => ?_⟩
  · rw [hg.inputValues_eq, hg.firstInput_eq (Pipe.lower_mem_spans _),
      hg.firstOutput_eq List.mem_cons_self, hg.memory_eq List.mem_cons_self]
  · obtain ⟨i, o, hi, hout, hf, hl⟩ := hs
    have hin : i.Even := he i (List.mem_append_left _ (hi ▸ List.mem_cons_self))
    have heven : o.Even := he o (List.mem_append_right _ (hout ▸ List.mem_cons_self))
    simp only at hi hout
    subst hi hout
    have hil : i.lower.length = i.length := hin.1
    have hol : o.lower.length = o.length := heven.1
    have hd : i.data.length = i.length := rfl
    refine ⟨o, rfl, ?_⟩
    simp only [length_zip4, f.store.length_values, firstInput, firstOutput, inputValues,
      List.map_cons, List.headD_cons, Frame.values]
    omega

theorem response_keepPrevious {previous : Span} {keepValid : Bool}
    (ho : isOpen ⟨inputs, outputs, gate, .keepPrevious previous keepValid⟩ f.bits = true) :
    ∃ k cs, Response ⟨inputs, outputs, gate, .keepPrevious previous keepValid⟩ f k cs := by
  have hp : previous ∈ Kind.memory (.keepPrevious previous keepValid) := List.mem_cons_self
  let op : Operator := ⟨inputs, outputs, gate, .keepPrevious previous keepValid⟩
  refine ⟨_, Change.first outputs (f.store.values previous) ++ [.assign previous
    (List.zipWith (Element.remembered keepValid) (f.store.values previous)
      ((op.inputValues f).headD []))], .ofWrites ho rfl (fun g hg => ?_) (fun c hc => ?_) ?_⟩
  · rw [compute, Change.applyAll_append, Change.applyAll_first, ← hg.memory_eq hp,
      ← hg.inputValues_eq]
    rfl
  · rcases List.mem_append.1 hc with hc | hc
    · exact makes_first _ c hc
    · obtain rfl := List.mem_singleton.1 hc
      exact mem_written_state hp
  · refine renewed_first op _ _ fun hs _ => ?_
    obtain ⟨i, o, -, ho, hlen, hl⟩ := hs
    exact ⟨o, ho, Nat.le_of_eq (by rw [f.store.length_values, hl, hlen])⟩

theorem response_scalerOverflow {last overflows : Span}
    (ho : isOpen ⟨inputs, outputs, gate, .scalerOverflow last overflows⟩ f.bits = true) :
    ∃ k cs, Response ⟨inputs, outputs, gate, .scalerOverflow last overflows⟩ f k cs := by
  let op : Operator := ⟨inputs, outputs, gate, .scalerOverflow last overflows⟩
  have hl : last ∈ op.kind.memory := List.mem_cons_self
  have hv : overflows ∈ op.kind.memory := List.mem_cons_of_mem last List.mem_cons_self
  let vs := (op.inputValues f).headD []
  let counts := zip3 Element.overflows (f.store.values overflows) (f.store.values last) vs
  refine ⟨_, Change.first outputs
    (zip3 Element.unwrapped (f.store.values op.firstInput.upper) counts vs) ++
      [.assign overflows counts, .assign last
        (List.zipWith (Element.remembered true) (f.store.values last) vs)],
    .ofWrites ho rfl (fun g hg => ?_) (fun c hc => ?_) ?_⟩
  · rw [compute, Change.applyAll_append, Change.applyAll_first]
    simp only [counts, vs]
    rw [← hg.memory_eq hl, ← hg.memory_eq hv, ← hg.inputValues_eq,
      ← hg.firstInput_eq (Pipe.upper_mem_spans op.firstInput)]
    rfl
  · rcases List.mem_append.1 hc with hc | hc
    · exact makes_first _ c hc
    · rcases List.mem_cons.1 hc with rfl | hc
      · exact mem_written_state hv
      · obtain rfl := List.mem_singleton.1 hc
        exact mem_written_state hl
  · refine renewed_first op _ _ fun hs he => ?_
    obtain ⟨i, o, hi, ho, hlast, hover, hl⟩ := hs
    have heven : i.Even := he i (List.mem_append_left _ (hi ▸ List.mem_cons_self))
    obtain rfl : inputs = [i] := hi
    have hu : i.upper.length = i.length := heven.2
    have hd : i.data.length = i.length := rfl
    refine ⟨o, ho, ?_⟩
    simp only [counts, vs, op, length_zip3, f.store.length_values, firstInput, inputValues,
      List.map_cons, List.headD_cons, Frame.values]
    omega

theorem response_expression {e : Expression}
    (ho : isOpen ⟨inputs, outputs, gate, .expression e⟩ f.bits = true) :
    ∃ k cs, Response ⟨inputs, outputs, gate, .expression e⟩ f k cs := by
  let op : Operator := ⟨inputs, outputs, gate, .expression e⟩
  have heval : ∀ g, op.Indistinct f g → e.evaluate (op.inputValues g) (outputs.map g.values) =
      e.evaluate (op.inputValues f) (outputs.map f.values) := fun g hg => by
    have hout : outputs.map g.values = outputs.map f.values := List.map_congr_left fun p hp =>
      hg.revised_eq (List.mem_map_of_mem hp)
    rw [hg.inputValues_eq, hout]
  have hnew : ∀ {cs}, op.Renewed cs := fun _ _ hnil p hp => by
    rw [List.map_eq_nil_iff.1 hnil] at hp
    cases hp
  cases hr : e.evaluate (op.inputValues f) (outputs.map f.values) with
  | some results =>
    refine ⟨_, Change.each op.outputs results,
      .ofWrites ho rfl (fun g hg => ?_) (makes_each _) hnew⟩
    simp only [op, compute, Change.applyAll_each] at heval hr ⊢
    rw [heval g hg, hr]
  | none =>
    refine ⟨.expression { e with failed := true }, Change.drop op.outputs,
      .ofOpen ho rfl (fun g hg => ?_) rfl makes_drop hnew⟩
    simp only [op, compute, Change.applyAll_drop] at heval hr ⊢
    rw [heval g hg, hr]

theorem response_rateMonitor {m : RateMonitor}
    (ho : isOpen ⟨inputs, outputs, gate, .rateMonitor m⟩ f.bits = true) :
    ∃ k cs, Response ⟨inputs, outputs, gate, .rateMonitor m⟩ f k cs := by
  let op : Operator := ⟨inputs, outputs, gate, .rateMonitor m⟩
  let vs := (op.inputValues f).headD []
  have hnew : ∀ {cs}, op.Renewed cs := renewed_of_nil fun ⟨_, _, hout, _⟩ => hout
  cases hm : m.mode with
  | flow =>
    refine ⟨_, RateMonitor.counts m.hitCounts 0 vs, .ofWrites ho rfl (fun g hg => ?_)
      (fun c hc => ?_) hnew⟩
    · rw [← RateMonitor.countValid_eq]
      simp only [compute, RateMonitor.step, hm, vs]
      rw [← hg.inputValues_eq]
    · obtain ⟨j, rfl⟩ := RateMonitor.mem_counts hc
      exact mem_written_state List.mem_cons_self
  | precalculated =>
    refine ⟨.rateMonitor (m.step f.store vs).1, [],
      .ofOpen ho rfl (fun g hg => ?_) ?_ (by simp) hnew⟩
    · simp only [compute, RateMonitor.step, hm, vs]
      rw [← hg.inputValues_eq]
      rfl
    · simp only [RateMonitor.step, hm, Kind.resting]
      rw [RateMonitor.reset_zipSamplers]
      intro s v
      split <;> rfl
  | counter =>
    refine ⟨.rateMonitor (m.step f.store vs).1, [],
      .ofOpen ho rfl (fun g hg => ?_) ?_ (by simp) hnew⟩
    · simp only [compute, RateMonitor.step, hm, vs]
      rw [← hg.inputValues_eq]
      rfl
    · simp only [RateMonitor.step, hm, Kind.resting]
      rw [RateMonitor.reset_zipSamplers]
      intro s v
      split
      · exact RateMonitor.reset_sample s v
      · rfl

theorem response_histograms {hs : List Histogram}
    (ho : isOpen ⟨inputs, outputs, gate, .histograms hs⟩ f.bits = true) :
    ∃ k cs, Response ⟨inputs, outputs, gate, .histograms hs⟩ f k cs := by
  let op : Operator := ⟨inputs, outputs, gate, .histograms hs⟩
  let vs := (op.inputValues f).headD []
  obtain ⟨hblank, hlen, hmem⟩ := Histogram.notedEach_spec hs vs
  refine ⟨.histograms (Histogram.notedEach hs vs).1, (Histogram.notedEach hs vs).2,
    fun g hg => ?_, congrArg Kind.histograms hblank, fun c hc => ?_, ?_,
    renewed_of_nil fun ⟨_, _, hout, _⟩ => hout⟩
  · have hinc := Change.applyAll_increments (fun c hc => by
      obtain ⟨h, -, i, rfl⟩ := hmem c hc
      exact ⟨_, _, Or.inl rfl⟩) g
    rw [step, hg.isOpen_eq, if_pos ho, compute, hinc]
    simp only [vs]
    rw [← hg.inputValues_eq, Histogram.fillEach_eq]
  · obtain ⟨h, hh, i, rfl⟩ := hmem c hc
    exact List.mem_map_of_mem hh
  · exact Nat.le_trans List.countP_le_length hlen

theorem response_planeHistogram {h : PlaneHistogram}
    (ho : isOpen ⟨inputs, outputs, gate, .planeHistogram h⟩ f.bits = true) :
    ∃ k cs, Response ⟨inputs, outputs, gate, .planeHistogram h⟩ f k cs := by
  let op : Operator := ⟨inputs, outputs, gate, .planeHistogram h⟩
  have hnew : ∀ {cs}, op.Renewed cs := renewed_of_nil fun ⟨_, _, _, hout, _⟩ => hout
  have hkeep : (∀ g, op.Indistinct f g → op.compute g = (op, g)) →
      ∃ k cs, Response op f k cs := fun hc =>
    ⟨op.kind, [], fun g hg => by
      rw [step, hg.isOpen_eq, if_pos ho, hc g hg]
      rfl, rfl, by simp, Nat.zero_le _, hnew⟩
  cases hp : pairOf? (op.inputValues f) with
  | none =>
    refine hkeep fun g hg => ?_
    rw [← hg.inputValues_eq] at hp
    simp only [op, compute] at hp ⊢
    rw [hp]
  | some ab =>
    obtain ⟨a, b⟩ := ab
    by_cases hv : (a.isValid && b.isValid) = true
    · obtain ⟨hrest, hlen, hmem⟩ := h.noted_spec a b
      refine ⟨.planeHistogram (h.noted a b).1, (h.noted a b).2, fun g hg => ?_, hrest,
        fun c hc => ?_, ?_, hnew⟩
      · have hinc := Change.applyAll_increments (fun c hc => by
          obtain ⟨i, rfl⟩ := hmem c hc
          exact ⟨_, _, Or.inl rfl⟩) g
        rw [← hg.inputValues_eq] at hp
        rw [step, hg.isOpen_eq, if_pos ho, compute, hinc]
        simp only at hp ⊢
        rw [hp]
        simp only [hv, if_true, PlaneHistogram.fill_eq]
      · obtain ⟨i, rfl⟩ := hmem c hc
        exact List.mem_cons_self
      · exact Nat.le_trans List.countP_le_length hlen
    · refine hkeep fun g hg => ?_
      rw [← hg.inputValues_eq] at hp
      simp only [op, compute] at hp ⊢
      rw [hp]
      simp only [if_neg hv]

theorem response_exportSink {s : ExportSink}
    (ho : isOpen ⟨inputs, outputs, gate, .exportSink s⟩ f.bits = true) :
    ∃ k cs, Response ⟨inputs, outputs, gate, .exportSink s⟩ f k cs := by
  let op : Operator := ⟨inputs, outputs, gate, .exportSink s⟩
  let ins := op.inputValues f
  refine ⟨.exportSink (s.step ins f.volume).1, [.write s ins],
    .ofOpen ho rfl (fun g hg => ?_) ?_ ?_ (renewed_of_nil fun ⟨_, hout, _⟩ => hout)⟩
  · simp only [compute, ins]
    rw [← hg.inputValues_eq, (s.step_agree (hg.volume s rfl) _).1]
    rfl
  · exact congrArg Kind.exportSink (s.blank_step ins f.volume)
  · intro c hc
    obtain rfl := List.mem_singleton.1 hc
    rfl

theorem response_rectangleFilter {x y : Window Value} {junction : Junction}
    (ho : isOpen ⟨inputs, outputs, gate, .rectangleFilter x y junction⟩ f.bits = true) :
    ∃ k cs, Response ⟨inputs, outputs, gate, .rectangleFilter x y junction⟩ f k cs := by
  let op : Operator := ⟨inputs, outputs, gate, .rectangleFilter x y junction⟩
  let result (a b : Value) : List Value :=
    [if Kind.rectangle junction (x.admits a) (y.admits b) then Value.one else Value.invalid]
  refine ⟨_, _, .ofPair ho rfl (fun a b => Change.first op.outputs (result a b)) (fun g => ?_)
    (fun a b => ?_) fun hs he => ?_⟩
  · cases hp : pairOf? (op.inputValues g) with
    | none => simp only [op, compute, hp]
    | some p => simp only [op, compute, hp, Change.applyAll_first, result]
  · exact makes_first (result a b)
  · obtain ⟨p, q, o, hin, hout, hp, hq, hl⟩ := hs
    simp only at hin
    subst hin
    simp only [inputValues, List.map_cons, List.map_nil, Frame.values,
      f.store.values_of_length_one hp, f.store.values_of_length_one hq, onPair, pairOf?]
    rw [← List.append_nil (Change.first _ _)]
    exact renewed_first op (result _ _) [] (fun _ _ => ⟨o, hout, Nat.le_of_eq hl⟩)
      ⟨p, q, o, rfl, hout, hp, hq, hl⟩ he

theorem exists_response (op : Operator) (f : Frame) : ∃ k cs, op.Response f k cs := by
  cases ho : op.isOpen f.bits with
  | false => exact ⟨_, _, .ofClosed ho⟩
  | true =>
    obtain ⟨inputs, outputs, gate, kind⟩ := op
    cases kind with
    | calibration factors => exact response_calibration ho
    | keepPrevious previous keepValid => exact response_keepPrevious ho
    | difference =>
      refine ⟨_, _, .ofTwo ho rfl (fun g => rfl) ?_⟩
      rintro ⟨a, b, o, hin, hout, hab, hl⟩
      refine ⟨a, b, o, hin, hout, fun xs ys hx hy => ?_⟩
      rw [List.length_zipWith]
      omega
    | arrayMap mappings =>
      refine ⟨_, _, .ofFirst ho rfl (fun g => rfl) (fun g hg => ?_) ?_⟩
      · rw [hg.inputValues_eq]
      · rintro ⟨o, hout, hl⟩ -
        exact ⟨o, hout, Nat.le_of_eq (by rw [List.length_map, hl])⟩
    | equation e =>
      refine ⟨_, _, .ofTwo ho rfl (fun g => rfl) ?_⟩
      rintro ⟨a, b, o, hin, hout, hab, hl⟩
      refine ⟨a, b, o, hin, hout, fun xs ys hx hy => ?_⟩
      rw [List.length_zipWith]
      omega
    | aggregate r w =>
      refine ⟨_, _, .ofFirst ho rfl (fun g => rfl) (fun g hg => ?_) ?_⟩
      · rw [hg.inputValues_eq, hg.firstInput_eq (Pipe.lower_mem_spans _),
          hg.firstInput_eq (Pipe.upper_mem_spans _)]
      · rintro ⟨i, o, -, hout, hl⟩ -
        exact ⟨o, hout, Nat.le_of_eq hl⟩
    | rangeFilter w inverted =>
      refine ⟨_, _, .ofFirst ho rfl (fun g => rfl) (fun g hg => ?_) ?_⟩
      · rw [hg.inputValues_eq]
      · rintro ⟨i, o, hin, hout, hl⟩ -
        simp only at hin
        subst hin
        refine ⟨o, hout, ?_⟩
        rw [List.length_map, inputValues, List.map_cons, List.headD_cons, Frame.values,
          f.store.length_values, hl]
        exact Nat.le_refl _
    | rectangleFilter x y junction => exact response_rectangleFilter ho
    | conditionFilter inverted =>
      refine ⟨_, _, .ofTwo ho rfl (fun g => rfl) ?_⟩
      rintro ⟨d, c, o, hin, hout, -, hl⟩
      refine ⟨d, c, o, hin, hout, fun xs ys hx hy => ?_⟩
      exact Nat.le_of_eq (by rw [Kind.length_conditioned, hx, hl])
    | scalerOverflow last overflows => exact response_scalerOverflow ho
    | expression e => exact response_expression ho
    | histograms hs => exact response_histograms ho
    | planeHistogram h => exact response_planeHistogram ho
    | rateMonitor m => exact response_rateMonitor ho
    | exportSink s => exact response_exportSink ho
    | intervalCondition intervals bit =>
      refine ⟨_, _, .ofInputs ho rfl (fun ins => Change.bitsFrom bit
        (List.zipWith Window.admits intervals (ins.headD []))) (fun g => ?_) (fun ins => ?_)
          (renewed_of_nil fun ⟨_, _, hout, _⟩ => hout)⟩
      · simp only [compute, Change.applyAll_bitsFrom]
      · refine makes_bitsFrom rfl ?_
        rw [List.length_zipWith]
        exact Nat.min_le_left _ _
    | rectangleCondition x y bit =>
      refine ⟨_, _, .ofPair ho rfl (fun a b => Change.bitsFrom bit [Kind.inRectangle x y a b])
        (fun g => ?_) (fun a b => makes_bitsFrom rfl (Nat.le_refl 1))
          (renewed_of_nil fun ⟨_, _, _, hout, _⟩ => hout)⟩
      cases hp : pairOf? (inputValues ⟨inputs, outputs, gate, .rectangleCondition x y bit⟩ g) with
      | none => simp only [compute, hp]
      | some p => simp only [compute, hp, Change.applyAll_bitsFrom]
    | polygonCondition polygon bit =>
      refine ⟨_, _, .ofPair ho rfl (fun a b => Change.bitsFrom bit [Kind.inPolygon polygon a b])
        (fun g => ?_) (fun a b => makes_bitsFrom rfl (Nat.le_refl 1))
          (renewed_of_nil fun ⟨_, _, _, hout, _⟩ => hout)⟩
      cases hp : pairOf? (inputValues ⟨inputs, outputs, gate, .polygonCondition polygon bit⟩ g) with
      | none => simp only [compute, hp]
      | some p => simp only [compute, hp, Change.applyAll_bitsFrom]

end Operator

end Readout
