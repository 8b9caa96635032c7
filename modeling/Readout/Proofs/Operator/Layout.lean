import Readout.Operator.Basic
import Readout.Proofs.Allocation

/-!
# What operators occupy

An operator owns the spans of its outputs, the spans in which it remembers something and the bins
of its histograms; it reads the pipes of its inputs as well. Which spans these are is fixed when
the operator is made: a run changes the contents of a node, never its layout. Two operators are in
order when one of them writes what the other one reads, values or a gate bit.
-/
namespace Readout

namespace Pipe

/-- The pipe and the views of its single elements. -/
def views (p : Pipe) : List Pipe := p :: (List.range p.length).filterMap p.element?

/-- What a view occupies belongs to its pipe, each span to its counterpart. -/
structure Inside (v p : Pipe) : Prop where
  data : ∀ i ∈ v.data, i ∈ p.data
  lower : ∀ i ∈ v.lower, i ∈ p.lower
  upper : ∀ i ∈ v.upper, i ∈ p.upper

theorem element?_eq_some {p v : Pipe} {i : Nat} (h : p.element? i = some v) :
    p.data.element? i = some v.data ∧ p.lower.element? i = some v.lower ∧
      p.upper.element? i = some v.upper := by
  rw [element?] at h
  cases hd : p.data.element? i <;> cases hl : p.lower.element? i <;>
    cases hu : p.upper.element? i <;> simp [hd, hl, hu] at h
  subst h
  exact ⟨rfl, rfl, rfl⟩

theorem even_of_element {p v : Pipe} {i : Nat} (h : p.element? i = some v) :
    v.Even ∧ v.length = 1 := by
  obtain ⟨hd, hl, hu⟩ := element?_eq_some h
  have hd' := (Span.element?_eq_some hd).2
  have hl' := (Span.element?_eq_some hl).2
  have hu' := (Span.element?_eq_some hu).2
  simp [Even, length, hd', hl', hu']

theorem mem_views {p v : Pipe} (h : v ∈ p.views) : v = p ∨ ∃ i, p.element? i = some v := by
  rcases List.mem_cons.1 h with h | h
  · exact Or.inl h
  · obtain ⟨i, -, hi⟩ := List.mem_filterMap.1 h
    exact Or.inr ⟨i, hi⟩

theorem inside_of_mem_views {p v : Pipe} (h : v ∈ p.views) : v.Inside p := by
  rcases mem_views h with rfl | ⟨i, hi⟩
  · exact ⟨fun _ => id, fun _ => id, fun _ => id⟩
  · obtain ⟨hd, hl, hu⟩ := element?_eq_some hi
    exact ⟨fun j => Span.mem_of_mem_element hd, fun j => Span.mem_of_mem_element hl,
      fun j => Span.mem_of_mem_element hu⟩

theorem even_of_mem_views {p v : Pipe} (hp : p.Even) (h : v ∈ p.views) : v.Even := by
  rcases mem_views h with rfl | ⟨i, hi⟩
  · exact hp
  · exact (even_of_element hi).1

theorem apart_of_empty_view {v : Pipe} {s p : Span} (hv : v.Even) (h : v.length = 0)
    (hs : s ∈ v.spans) : p.Apart s := by
  have hz : s.length = 0 := by
    simp only [spans, List.mem_cons, List.not_mem_nil, or_false] at hs
    obtain ⟨hl, hu⟩ := hv
    rcases hs with rfl | rfl | rfl
    · exact h
    · exact hl.trans h
    · exact hu.trans h
  exact Span.apart_of_length_eq_zero hz

theorem apart_of_inside {v p : Pipe} {q s : Span} (h : v.Inside p) (hs : s ∈ v.spans)
    (hq : ∀ t ∈ p.spans, q.Apart t) : q.Apart s := by
  intro i hi hj
  simp only [spans, List.mem_cons, List.not_mem_nil, or_false] at hs hq
  rcases hs with rfl | rfl | rfl
  · exact hq p.data (Or.inl rfl) i hi (h.data i hj)
  · exact hq p.lower (Or.inr (Or.inl rfl)) i hi (h.lower i hj)
  · exact hq p.upper (Or.inr (Or.inr rfl)) i hi (h.upper i hj)

theorem spans_perm (ps : List Pipe) :
    (ps.flatMap Pipe.spans).Perm (ps.flatMap Pipe.limits ++ ps.map Pipe.data) := by
  have hspans : ∀ p : Pipe, p.spans.Perm (p.limits ++ [p.data]) := fun p =>
    (List.perm_append_singleton p.data p.limits).symm
  have hdata : ps.map Pipe.data = ps.flatMap fun p => [p.data] :=
    List.map_eq_flatMap
  rw [hdata]
  exact (List.Perm.flatMap_left ps fun p _ => hspans p).trans (List.flatMap_append_perm ps _ _).symm

end Pipe

namespace Kind

/-- Where an operator remembers values from one event to the next, or keeps constants. -/
def memory : Kind → List Span
  | calibration factors => [factors]
  | keepPrevious previous _ => [previous]
  | scalerOverflow last overflows => [last, overflows]
  | rateMonitor m => [m.hitCounts]
  | _ => []

/-- Constants that a kind computes with. -/
def constants : Kind → List Span
  | calibration factors => [factors]
  | _ => []

/-- Where an operator remembers values from one event to the next. -/
def state : Kind → List Span
  | keepPrevious previous _ => [previous]
  | scalerOverflow last overflows => [last, overflows]
  | rateMonitor m => [m.hitCounts]
  | _ => []

/-- What goes into outputs of what they held before. -/
def revised (outputs : List Pipe) : Kind → List Span
  | expression _ => outputs.map Pipe.data
  | _ => []

/-- The storage of histograms. -/
def bins : Kind → List Span
  | histograms hs => hs.map Histogram.data
  | planeHistogram h => [h.data]
  | _ => []

/-- The bins of a plane, counted without regard to the word size. -/
def planeBins? : Kind → Option Nat
  | planeHistogram h => some (h.xBins * h.yBins)
  | _ => none

/-- A sink that has a file open. -/
def opened : Kind → Bool
  | exportSink s => s.writer.isSome
  | _ => false

/-- A kind without the traces of a run: as it is made, or as a run begins. -/
def resting : Kind → Kind
  | expression e => expression { e with failed := false }
  | histograms hs => histograms (hs.map fun h => ⟨h.data, h.axis, h.factor, .zero, .zero, .zero⟩)
  | planeHistogram h =>
    planeHistogram ⟨h.data, h.x, h.y, h.xBins, h.yBins, .zero, .zero, .zero⟩
  | rateMonitor m => rateMonitor { m with samplers := m.samplers.map Sampler.reset }
  | exportSink s => exportSink (.new s.path s.format s.level s.hasCondition)
  | k => k

/-- What the maker of a kind has checked about the sizes of its pipes and of its memory. -/
def Shaped : Kind → List Pipe → List Pipe → Prop
  | calibration factors, ins, outs => ∃ i o, ins = [i] ∧ outs = [o] ∧
      factors.length = i.length ∧ o.length = i.length
  | keepPrevious previous _, ins, outs => ∃ i o, ins = [i] ∧ outs = [o] ∧
      previous.length = i.length ∧ o.length = i.length
  | difference, ins, outs | equation _, ins, outs => ∃ a b o, ins = [a, b] ∧ outs = [o] ∧
      a.length = b.length ∧ o.length = a.length
  | arrayMap mappings, _, outs => ∃ o, outs = [o] ∧ o.length = mappings.length
  | aggregate .., ins, outs => ∃ i o, ins = [i] ∧ outs = [o] ∧ o.length = 1
  | rangeFilter .., ins, outs => ∃ i o, ins = [i] ∧ outs = [o] ∧ o.length = i.length
  | rectangleFilter .., ins, outs => ∃ x y o, ins = [x, y] ∧ outs = [o] ∧
      x.length = 1 ∧ y.length = 1 ∧ o.length = 1
  | conditionFilter _, ins, outs => ∃ d c o, ins = [d, c] ∧ outs = [o] ∧
      (c.length = 1 ∨ c.length = d.length) ∧ o.length = d.length
  | scalerOverflow last overflows, ins, outs => ∃ i o, ins = [i] ∧ outs = [o] ∧
      last.length = i.length ∧ overflows.length = i.length ∧ o.length = i.length
  | expression e, _, outs => outs.map Pipe.length = e.declarations.map Declaration.size
  | histograms hs, ins, outs => ∃ i, ins = [i] ∧ outs = [] ∧ hs.length = i.length ∧
      ∀ h ∈ hs, 0 < h.bins
  | planeHistogram h, ins, outs => ∃ x y, ins = [x, y] ∧ outs = [] ∧ x.length = 1 ∧
      y.length = 1 ∧ 0 < h.xBins ∧ 0 < h.yBins ∧ h.data.length = h.xBins * h.yBins % Word.size 64
  | rateMonitor m, ins, outs => ∃ i, ins = [i] ∧ outs = [] ∧ m.samplers.length = i.length ∧
      m.hitCounts.length = i.length
  | exportSink s, ins, outs => ins ≠ [] ∧ outs = [] ∧
      (s.hasCondition = true → ∀ p ∈ ins.getLast?, p.length ≠ 0)
  | intervalCondition intervals _, ins, outs => ∃ i, ins = [i] ∧ outs = [] ∧
      intervals.length = i.length
  | rectangleCondition .., ins, outs => ∃ x y, ins = [x, y] ∧ outs = [] ∧ x.length = 1 ∧
      y.length = 1
  | polygonCondition polygon _, ins, outs => ∃ x y, ins = [x, y] ∧ outs = [] ∧ x.length = 1 ∧
      y.length = 1 ∧ 3 ≤ polygon.length

theorem memory_eq (k : Kind) : k.memory = k.constants ++ k.state := by
  cases k <;> rfl

@[simp] theorem memory_withFirstBit (k : Kind) (bit : Nat) :
    (k.withFirstBit bit).memory = k.memory := by
  cases k <;> rfl

@[simp] theorem bins_withFirstBit (k : Kind) (bit : Nat) : (k.withFirstBit bit).bins = k.bins := by
  cases k <;> rfl

@[simp] theorem bitCount_withFirstBit (k : Kind) (bit : Nat) :
    (k.withFirstBit bit).bitCount = k.bitCount := by
  cases k <;> rfl

@[simp] theorem opened_withFirstBit (k : Kind) (bit : Nat) :
    (k.withFirstBit bit).opened = k.opened := by
  cases k <;> rfl

theorem shaped_withFirstBit (k : Kind) (bit : Nat) (ins outs : List Pipe) :
    (k.withFirstBit bit).Shaped ins outs ↔ k.Shaped ins outs := by
  cases k <;> exact Iff.rfl

theorem firstBit?_withFirstBit {k : Kind} (h : 0 < k.bitCount) (bit : Nat) :
    (k.withFirstBit bit).firstBit? = some bit := by
  cases k with
  | intervalCondition intervals first =>
    have hsome : intervals.isEmpty = false := List.isEmpty_eq_false_iff.2 (List.length_pos_iff.1 h)
    simp [withFirstBit, firstBit?, hsome]
  | rectangleCondition | polygonCondition => rfl
  | _ => cases h

@[simp] theorem memory_resting (k : Kind) : k.resting.memory = k.memory := by
  cases k <;> rfl

@[simp] theorem bins_resting (k : Kind) : k.resting.bins = k.bins := by
  cases k with
  | histograms hs => simp [resting, bins, Function.comp_def]
  | _ => rfl

@[simp] theorem bitCount_resting (k : Kind) : k.resting.bitCount = k.bitCount := by
  cases k <;> rfl

@[simp] theorem firstBit?_resting (k : Kind) : k.resting.firstBit? = k.firstBit? := by
  cases k <;> rfl

@[simp] theorem maxFills_resting (k : Kind) : k.resting.maxFills = k.maxFills := by
  cases k with
  | histograms hs => simp [resting, maxFills]
  | _ => rfl

@[simp] theorem planeBins?_withFirstBit (k : Kind) (bit : Nat) :
    (k.withFirstBit bit).planeBins? = k.planeBins? := by
  cases k <;> rfl

@[simp] theorem planeBins?_resting (k : Kind) : k.resting.planeBins? = k.planeBins? := by
  cases k <;> rfl

theorem shaped_resting (k : Kind) (ins outs : List Pipe) :
    k.resting.Shaped ins outs ↔ k.Shaped ins outs := by
  cases k with
  | histograms hs => simp [resting, Shaped, Histogram.bins]
  | rateMonitor m => simp [resting, Shaped]
  | _ => exact Iff.rfl

end Kind

namespace Operator

/-- The spans that belong to an operator alone. -/
def owned (op : Operator) : List Span :=
  op.outputs.flatMap Pipe.spans ++ op.kind.memory ++ op.kind.bins

/-- The spans that an operator writes from one event to the next, but for the bins. -/
def written (op : Operator) : List Span := op.outputs.map Pipe.data ++ op.kind.state

/-- The spans that keep what they hold from the time when the operator is made. -/
def fixed (op : Operator) : List Span := op.outputs.flatMap Pipe.limits ++ op.kind.constants

def resting (op : Operator) : Operator := { op with kind := op.kind.resting }

def Shaped (op : Operator) : Prop := op.kind.Shaped op.inputs op.outputs

/-- One of the bits that a condition writes. -/
def OwnsBit (op : Operator) (bit : Nat) : Prop :=
  ∃ first ∈ op.kind.firstBit?, first ≤ bit ∧ bit < first + op.kind.bitCount

/-- An input of the second operator starts in an output of the first one. -/
def Feeds (a b : Operator) : Prop :=
  ∃ p ∈ a.outputs, ∃ v ∈ b.inputs, v.length ≠ 0 ∧ v.data.offset ∈ p.data

/-- The second operator runs only while a bit of the first one is set. -/
def Gates (a b : Operator) : Prop := ∃ bit ∈ b.gate, a.OwnsBit bit

/-- The first operator has to run before the second one. -/
def Precedes (a b : Operator) : Prop := a.Feeds b ∨ a.Gates b

/-- The two operators write no condition bit in common. -/
def BitsApart (a b : Operator) : Prop := ∀ bit, a.OwnsBit bit → ¬ b.OwnsBit bit

/-- The second operator reads nothing that the first one owns. -/
def Unread (a b : Operator) : Prop := ∀ s ∈ a.owned, ∀ v ∈ b.inputs, ∀ t ∈ v.spans, s.Apart t

/-- The spans of an operator that no other one can reach. -/
def hidden (op : Operator) : List Span := op.kind.memory ++ op.kind.bins

theorem Unread.not_feeds {a b : Operator} (h : a.Unread b) : ¬ a.Feeds b := by
  rintro ⟨p, hp, v, hv, hl, hin⟩
  have howned : p.data ∈ a.owned :=
    List.mem_append_left _ (List.mem_append_left _ (List.mem_flatMap.2 ⟨p, hp, p.data_mem_spans⟩))
  refine h p.data howned v hv v.data v.data_mem_spans v.data.offset hin ?_
  exact ⟨Nat.le_refl _, by rw [Pipe.length] at hl; omega⟩

instance (op : Operator) (bit : Nat) : Decidable (op.OwnsBit bit) :=
  inferInstanceAs (Decidable (∃ first ∈ op.kind.firstBit?, first ≤ bit ∧ bit < _))

instance (a b : Operator) : Decidable (a.Feeds b) :=
  inferInstanceAs (Decidable (∃ p ∈ a.outputs, ∃ v ∈ b.inputs, _ ∧ v.data.offset ∈ p.data))

instance (a b : Operator) : Decidable (a.Gates b) :=
  inferInstanceAs (Decidable (∃ bit ∈ b.gate, a.OwnsBit bit))

instance (a b : Operator) : Decidable (a.Precedes b) :=
  inferInstanceAs (Decidable (a.Feeds b ∨ a.Gates b))

@[simp] theorem inputs_resting (op : Operator) : op.resting.inputs = op.inputs := rfl

@[simp] theorem outputs_resting (op : Operator) : op.resting.outputs = op.outputs := rfl

@[simp] theorem gate_resting (op : Operator) : op.resting.gate = op.gate := rfl

@[simp] theorem kind_resting (op : Operator) : op.resting.kind = op.kind.resting := rfl

@[simp] theorem owned_resting (op : Operator) : op.resting.owned = op.owned := by
  simp [owned]

@[simp] theorem fixed_resting (op : Operator) : op.resting.fixed = op.fixed := by
  obtain ⟨inputs, outputs, gate, kind⟩ := op
  cases kind <;> rfl

theorem owned_parts (op : Operator) :
    op.owned.Perm (op.fixed ++ (op.written ++ op.kind.bins)) := by
  have hspans := Pipe.spans_perm op.outputs
  have hmid : (op.outputs.flatMap Pipe.limits ++ op.outputs.map Pipe.data ++
      (op.kind.constants ++ op.kind.state)).Perm (op.fixed ++ op.written) := by
    rw [fixed, written, List.append_assoc, List.append_assoc]
    refine List.Perm.append_left _ ?_
    rw [← List.append_assoc, ← List.append_assoc]
    exact List.perm_append_comm.append_right _
  rw [owned, op.kind.memory_eq, ← List.append_assoc op.fixed]
  exact ((hspans.append_right _).trans hmid).append_right _

theorem shaped_resting (op : Operator) : op.resting.Shaped ↔ op.Shaped :=
  Kind.shaped_resting op.kind op.inputs op.outputs

theorem precedes_resting (a b : Operator) : a.resting.Precedes b.resting ↔ a.Precedes b := by
  simp [Precedes, Feeds, Gates, OwnsBit]

end Operator

/-- Operators of one arena. Each owns its spans alone, and reads of what another one owns at most
its outputs. -/
structure Laid (ops : List Operator) : Prop where
  apart : (ops.flatMap Operator.owned).Pairwise Span.Apart
  reads : ∀ a ∈ ops, ∀ b ∈ ops, a.Feeds b ∨ a.Unread b
  alone : ∀ a ∈ ops, a.Unread a
  hidden : ∀ a ∈ ops, ∀ b ∈ ops, ∀ s ∈ a.hidden, ∀ v ∈ b.inputs, ∀ t ∈ v.spans, s.Apart t
  outputs_even : ∀ a ∈ ops, ∀ p ∈ a.outputs, p.Even
  shaped : ∀ a ∈ ops, a.Shaped

namespace Laid

variable {ops ops' : List Operator}

theorem perm (h : Laid ops) (hp : ops.Perm ops') : Laid ops' where
  apart := h.apart.perm (hp.flatMap_right _) fun k => k.symm
  reads a ha b hb := h.reads a (hp.mem_iff.2 ha) b (hp.mem_iff.2 hb)
  alone a ha := h.alone a (hp.mem_iff.2 ha)
  hidden a ha b hb := h.hidden a (hp.mem_iff.2 ha) b (hp.mem_iff.2 hb)
  outputs_even a ha := h.outputs_even a (hp.mem_iff.2 ha)
  shaped a ha := h.shaped a (hp.mem_iff.2 ha)

theorem map_resting : Laid (ops.map Operator.resting) ↔ Laid ops := by
  have hunread : ∀ a b : Operator, a.resting.Unread b.resting ↔ a.Unread b := fun a b => by
    simp [Operator.Unread]
  have hhidden : ∀ a : Operator, a.resting.hidden = a.hidden := fun a => by
    simp [Operator.hidden]
  have hfeeds : ∀ a b : Operator, a.resting.Feeds b.resting ↔ a.Feeds b := fun a b => Iff.rfl
  constructor
  · rintro ⟨happ, hreads, halone, hhid, heven, hshaped⟩
    simp only [List.flatMap_map, List.forall_mem_map, Operator.owned_resting, hfeeds, hunread,
      hhidden, Operator.shaped_resting, Operator.inputs_resting, Operator.outputs_resting] at *
    exact ⟨happ, hreads, halone, hhid, heven, hshaped⟩
  · rintro ⟨happ, hreads, halone, hhid, heven, hshaped⟩
    constructor <;> simpa only [List.flatMap_map, List.forall_mem_map, Operator.owned_resting,
      hfeeds, hunread, hhidden, Operator.shaped_resting, Operator.inputs_resting,
      Operator.outputs_resting]

theorem of_resting (h : Laid ops) (hr : ops'.map Operator.resting = ops.map Operator.resting) :
    Laid ops' := by
  rw [← map_resting, hr, map_resting]
  exact h

end Laid

end Readout
