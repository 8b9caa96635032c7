import Readout.Proofs.Checked.Bins

/-!
# Operators in range

The sizes that makers check, and the places that allocation finds, are all that a checked step
needs: it has a result, and this is that of the plain step.
-/
namespace Readout

theorem zipWith_range (g : Value → Value → Value) (a b : Nat → Value) (n : Nat) :
    List.zipWith g ((List.range n).map a) ((List.range n).map b) =
      (List.range n).map fun i => g (a i) (b i) := by
  rw [List.zipWith_map, List.zipWith_self]

/-- The number of bins of a plane is not taken modulo the word size. -/
def Kind.Exact (k : Kind) : Prop := ∀ n ∈ k.planeBins?, n < Word.size 64

namespace Operator

theorem zip3_range (g : Value → Value → Value → Value) (a b c : Nat → Value) (is : List Nat) :
    zip3 g (is.map a) (is.map b) (is.map c) = is.map fun i => g (a i) (b i) (c i) := by
  induction is with
  | nil => rfl
  | cons i is ih => rw [List.map_cons, List.map_cons, List.map_cons, zip3, ih, List.map_cons]

theorem zip4_range (g : Value → Value → Value → Value → Value) (a b c d : Nat → Value)
    (is : List Nat) : zip4 g (is.map a) (is.map b) (is.map c) (is.map d) =
      is.map fun i => g (a i) (b i) (c i) (d i) := by
  induction is with
  | nil => rfl
  | cons i is ih =>
    rw [List.map_cons, List.map_cons, List.map_cons, List.map_cons, zip4, ih, List.map_cons]

/-- The spans that an operator reads or writes. -/
def reach (op : Operator) : List Span := op.inputs.flatMap Pipe.spans ++ op.owned

/-- An operator that its maker has checked, in a store with so many slots. -/
structure InRange (slots : Nat) (op : Operator) : Prop where
  shaped : op.Shaped
  even : ∀ p ∈ op.inputs ++ op.outputs, p.Even
  fits : ∀ p ∈ op.reach, p.stop ≤ slots
  apart : op.owned.Pairwise Span.Apart
  alone : op.Unread op
  exact : op.kind.Exact

namespace InRange

variable {slots : Nat} {op : Operator} {f : Frame}

theorem map_resting : InRange slots op.resting ↔ InRange slots op := by
  have hreach : op.resting.reach = op.reach := by simp [reach]
  have hunread : op.resting.Unread op.resting ↔ op.Unread op := by simp [Unread]
  constructor
  · rintro ⟨hs, he, hf, ha, hu, hx⟩
    rw [shaped_resting] at hs
    rw [hreach] at hf
    rw [owned_resting] at ha
    exact ⟨hs, he, hf, ha, hunread.1 hu, by simpa [Kind.Exact] using hx⟩
  · rintro ⟨hs, he, hf, ha, hu, hx⟩
    rw [← shaped_resting] at hs
    rw [← hreach] at hf
    rw [← owned_resting] at ha
    exact ⟨hs, he, hf, ha, hunread.2 hu, by simpa [Kind.Exact] using hx⟩

theorem input_apart (h : InRange slots op) {v : Pipe} {p q : Span} (hv : v ∈ op.inputs)
    (hp : p ∈ v.spans) (hq : q ∈ op.owned) : p.Apart q :=
  (h.alone q hq v hv p hp).symm

theorem view?_eq (h : InRange f.store.slots op) (ps : List Span) (hp : ps ⊆ op.reach) :
    f.store.view? ps = some () := Store.view?_eq fun p hm => h.fits p (hp hm)

theorem bins_stop_le (h : InRange slots op) {p : Span} (hp : p ∈ op.kind.bins) : p.stop ≤ slots :=
  h.fits p (List.mem_append_right _ (List.mem_append_right _ hp))

theorem output_apart_memory (h : InRange slots op) {v : Pipe} {p q : Span} (hv : v ∈ op.outputs)
    (hp : p ∈ v.spans) (hq : q ∈ op.kind.memory) : q.Apart p := by
  have howned := (List.pairwise_append.1 h.apart).1
  exact ((List.pairwise_append.1 howned).2.2 p (List.mem_flatMap.2 ⟨v, hv, hp⟩) q hq).symm

theorem output_apart (h : InRange slots op) {v : Pipe} (hv : v ∈ op.outputs) :
    v.lower.Apart v.data := by
  have howned := (List.pairwise_append.1 (List.pairwise_append.1 h.apart).1).1
  have hspans := howned.sublist (List.sublist_flatten_of_mem (List.mem_map_of_mem hv))
  exact ((List.pairwise_cons.1 hspans).1 v.lower (by simp)).symm

theorem memory_apart (h : InRange slots op) : op.kind.memory.Pairwise Span.Apart :=
  (List.pairwise_append.1 (List.pairwise_append.1 h.apart).1).2.1

theorem inputs_subset_reach (op : Operator) : op.inputs.map Pipe.data ⊆ op.reach := by
  intro p hp
  obtain ⟨v, hv, rfl⟩ := List.mem_map.1 hp
  exact List.mem_append_left _ (List.mem_flatMap.2 ⟨v, hv, v.data_mem_spans⟩)

theorem data_mem_owned {v : Pipe} (hv : v ∈ op.outputs) : v.data ∈ op.owned :=
  List.mem_append_left _ (List.mem_append_left _ (List.mem_flatMap.2 ⟨v, hv, v.data_mem_spans⟩))

theorem outputs_subset_reach (op : Operator) : op.outputs.map Pipe.data ⊆ op.reach := by
  intro p hp
  obtain ⟨v, hv, rfl⟩ := List.mem_map.1 hp
  exact List.mem_append_right _ (data_mem_owned hv)

theorem memory_mem_owned {p : Span} (hp : p ∈ op.kind.memory) : p ∈ op.owned :=
  List.mem_append_left _ (List.mem_append_right _ hp)

section Kinds

variable {i o : Pipe} {gate : Option Nat}

theorem compute?_calibration {factors : Span}
    (h : InRange f.store.slots ⟨[i], [o], gate, .calibration factors⟩) :
    compute? ⟨[i], [o], gate, .calibration factors⟩ f =
      some (compute ⟨[i], [o], gate, .calibration factors⟩ f) := by
  obtain ⟨_, _, hi, ho, hf, hl⟩ := h.shaped
  cases hi
  cases ho
  have hin : i.Even := h.even i (by simp)
  have hon : o.Even := h.even o (by simp)
  have hia : ∀ p ∈ i.spans, p.Apart o.data := fun p hp =>
    h.input_apart (List.mem_singleton_self i) hp (data_mem_owned (List.mem_singleton_self o))
  have hfa : factors.Apart o.data :=
    h.output_apart_memory (List.mem_singleton_self o) o.data_mem_spans (by simp [Kind.memory])
  have hla := h.output_apart (List.mem_singleton_self o)
  have hview := h.view?_eq [i.data, i.lower, o.data, o.lower, factors]
    (by simp [reach, owned, Pipe.spans, Kind.memory])
  have hdata : f.values i = (List.range i.length).map (f.store.get i.data) := rfl
  have hlower := f.store.values_eq_range hin.1
  have hunit := f.store.values_eq_range (hon.1.trans hl)
  have hfactors := f.store.values_eq_range hf
  simp only [compute?, List.getElem?_cons_zero, Option.bind_eq_bind, Option.bind_some, hview]
  rw [Store.loop?_columns [i.data, i.lower, o.lower, factors]
    (fun k => Element.calibrated (f.store.get i.data k) (f.store.get i.lower k)
      (f.store.get o.lower k) (f.store.get factors k)) hl]
  · simp only [compute, inputValues, List.map_cons, List.map_nil, List.headD_cons, firstInput,
      firstOutput, hdata, hlower, hunit, hfactors, zip4_range]
    rfl
  · have hi := hia _ i.data_mem_spans
    have hil := hia _ i.lower_mem_spans
    have hd : i.data.length = i.length := rfl
    simp [hi, hil, hla, hfa, hf, hd, hin.1, hon.1.trans hl]
  · intro k hk t ht
    rw [ht i.data (by simp), ht i.lower (by simp), ht o.lower (by simp), ht factors (by simp)]
    rfl

theorem compute?_keepPrevious {previous : Span} {keepValid : Bool}
    (h : InRange f.store.slots ⟨[i], [o], gate, .keepPrevious previous keepValid⟩) :
    compute? ⟨[i], [o], gate, .keepPrevious previous keepValid⟩ f =
      some (compute ⟨[i], [o], gate, .keepPrevious previous keepValid⟩ f) := by
  obtain ⟨_, _, hi, ho, hp, hl⟩ := h.shaped
  cases hi
  cases ho
  have hmem : previous ∈ (Kind.keepPrevious previous keepValid).memory := by simp [Kind.memory]
  have hio : i.data.Apart o.data :=
    h.input_apart (List.mem_singleton_self i) i.data_mem_spans
      (data_mem_owned (List.mem_singleton_self o))
  have hip : i.data.Apart previous :=
    h.input_apart (List.mem_singleton_self i) i.data_mem_spans (memory_mem_owned hmem)
  have hpo : previous.Apart o.data :=
    h.output_apart_memory (List.mem_singleton_self o) o.data_mem_spans hmem
  have hview := h.view?_eq [i.data, o.data, previous]
    (by simp [reach, owned, Pipe.spans, Kind.memory])
  have hd : i.data.length = i.length := rfl
  have hdata : f.values i = (List.range i.length).map (f.store.get i.data) := rfl
  have hkept := f.store.values_eq_range hp
  obtain ⟨s, hs⟩ : ∃ s,
      s = f.store.assign o.data ((List.range i.length).map (f.store.get previous)) := ⟨_, rfl⟩
  simp only [compute?, List.getElem?_cons_zero, Option.bind_eq_bind, Option.bind_some, hview]
  rw [Store.loop?_columns [previous] (f.store.get previous) hl, Option.bind_some, ← hs,
    Store.loop?_columns [previous, i.data]
      (fun k => Element.remembered keepValid (s.get previous k) (s.get i.data k)) hp]
  · have hsame : ((List.range i.length).map fun k =>
        Element.remembered keepValid (s.get previous k) (s.get i.data k)) =
        (List.range i.length).map fun k =>
          Element.remembered keepValid (f.store.get previous k) (f.store.get i.data k) := by
      refine List.map_congr_left fun k hk => ?_
      have hk := List.mem_range.1 hk
      rw [hs, f.store.get_assign_of_apart _ hpo (hp ▸ hk),
        f.store.get_assign_of_apart _ hio (hd ▸ hk)]
    rw [hsame, hs]
    simp only [compute, inputValues, List.map_cons, List.map_nil, List.headD_cons, hdata, hkept,
      zipWith_range]
    rfl
  · simp [hip, hp, hd]
  · intro k hk t ht
    rw [ht previous (by simp), ht i.data (by simp)]
    rfl
  · simp [hpo, hp]
  · intro k hk t ht
    rw [ht previous (by simp)]
    rfl

theorem zip?_eq {a b : Pipe} {kind : Kind} (h : InRange f.store.slots ⟨[a, b], [o], gate, kind⟩)
    (hab : a.length = b.length) (hl : o.length = a.length) (g : Value → Value → Value) :
    zip? ⟨[a, b], [o], gate, kind⟩ g f =
      some (f.write o (List.zipWith g (f.values a) (f.values b))) := by
  have hia : ∀ v ∈ [a, b], v.data.Apart o.data := fun v hv =>
    h.input_apart hv v.data_mem_spans (data_mem_owned (List.mem_singleton_self o))
  have hview := h.view?_eq [a.data, b.data, o.data] (by simp [reach, owned, Pipe.spans])
  have ha : f.values a = (List.range a.length).map (f.store.get a.data) := rfl
  have hb : f.values b = (List.range a.length).map (f.store.get b.data) :=
    f.store.values_eq_range hab.symm
  simp only [zip?, List.getElem?_cons_zero, List.getElem?_cons_succ, Option.bind_eq_bind,
    Option.bind_some, hview, hl]
  rw [Store.loop?_columns [a.data, b.data]
    (fun k => g (f.store.get a.data k) (f.store.get b.data k)) hl]
  · rw [ha, hb, zipWith_range]
    rfl
  · have hda : a.data.length = a.length := rfl
    have hdb : b.data.length = a.length := hab.symm
    simp [hia, hda, hdb]
  · intro k hk t ht
    rw [ht a.data (by simp), ht b.data (by simp)]
    rfl

theorem compute?_aggregate {r : Reduction} {w : Window Value}
    (h : InRange f.store.slots ⟨[i], [o], gate, .aggregate r w⟩) :
    compute? ⟨[i], [o], gate, .aggregate r w⟩ f =
      some (compute ⟨[i], [o], gate, .aggregate r w⟩ f) := by
  obtain ⟨_, _, hi, ho, hl⟩ := h.shaped
  cases hi
  cases ho
  have hin : i.Even := h.even i (by simp)
  have hview := h.view?_eq [i.data, i.lower, i.upper, o.data]
    (by simp [reach, owned, Pipe.spans])
  have hpos : 0 < o.data.length := by
    rw [Pipe.length] at hl
    omega
  simp only [compute?, List.getElem?_cons_zero, Option.bind_eq_bind, Option.bind_some, hview]
  rw [Store.mapM_load?_eq (Nat.le_of_eq hin.1.symm), Option.bind_some,
    Store.mapM_load?_eq (Nat.le_of_eq hin.2.symm), Option.bind_some, Store.save?_eq _ hpos,
    Store.set_eq_assign _ hpos]
  have hlower := f.store.values_eq_range hin.1
  have hupper := f.store.values_eq_range hin.2
  simp only [compute, inputValues, List.map_cons, List.map_nil, List.headD_cons, firstInput,
    hlower, hupper]
  rfl

theorem pair?_eq {x y : Pipe} {outputs : List Pipe} {kind : Kind}
    (h : InRange f.store.slots ⟨[x, y], outputs, gate, kind⟩) (hx : x.length = 1)
    (hy : y.length = 1) :
    pair? ⟨[x, y], outputs, gate, kind⟩ f.store =
      pairOf? (inputValues ⟨[x, y], outputs, gate, kind⟩ f) := by
  have hview := h.view?_eq [x.data, y.data] (by simp [reach, Pipe.spans])
  have hx' : 0 < x.data.length := by
    rw [Pipe.length] at hx
    omega
  have hy' : 0 < y.data.length := by
    rw [Pipe.length] at hy
    omega
  simp only [pair?, List.getElem?_cons_zero, List.getElem?_cons_succ, Option.bind_eq_bind,
    Option.bind_some, hview, Store.load?_eq hx', Store.load?_eq hy']
  simp only [inputValues, List.map_cons, List.map_nil, Frame.values, f.store.values_one hx,
    f.store.values_one hy, pairOf?]
  rfl

theorem inputValues_pair {x y : Pipe} {outputs : List Pipe} {kind : Kind} (hx : x.length = 1)
    (hy : y.length = 1) : inputValues ⟨[x, y], outputs, gate, kind⟩ f =
      [[f.store.get x.data 0], [f.store.get y.data 0]] := by
  simp only [inputValues, List.map_cons, List.map_nil, Frame.values, f.store.values_one hx,
    f.store.values_one hy]

theorem compute?_rectangleFilter {x y : Pipe} {xWindow yWindow : Window Value} {j : Junction}
    (h : InRange f.store.slots ⟨[x, y], [o], gate, .rectangleFilter xWindow yWindow j⟩) :
    compute? ⟨[x, y], [o], gate, .rectangleFilter xWindow yWindow j⟩ f =
      some (compute ⟨[x, y], [o], gate, .rectangleFilter xWindow yWindow j⟩ f) := by
  obtain ⟨_, _, _, hi, ho, hx, hy, hl⟩ := h.shaped
  cases hi
  cases ho
  have hview := h.view?_eq [o.data] (by simp [reach, owned, Pipe.spans])
  have hpos : 0 < o.data.length := by
    rw [Pipe.length] at hl
    omega
  simp only [compute?, h.pair?_eq hx hy, compute, inputValues_pair hx hy, pairOf?,
    Option.bind_eq_bind, Option.bind_some, List.getElem?_cons_zero, hview, Store.save?_eq _ hpos,
    Store.set_eq_assign _ hpos]
  rfl

theorem compute?_conditionFilter {d c : Pipe} {inverted : Bool}
    (h : InRange f.store.slots ⟨[d, c], [o], gate, .conditionFilter inverted⟩) :
    compute? ⟨[d, c], [o], gate, .conditionFilter inverted⟩ f =
      some (compute ⟨[d, c], [o], gate, .conditionFilter inverted⟩ f) := by
  obtain ⟨_, _, _, hi, ho, hc, hl⟩ := h.shaped
  cases hi
  cases ho
  have hia : ∀ v ∈ [d, c], v.data.Apart o.data := fun v hv =>
    h.input_apart hv v.data_mem_spans (data_mem_owned (List.mem_singleton_self o))
  have hview := h.view?_eq [d.data, c.data, o.data] (by simp [reach, owned, Pipe.spans])
  have hdata : f.values d = (List.range d.length).map (f.store.get d.data) := rfl
  simp only [compute?, List.getElem?_cons_zero, List.getElem?_cons_succ, Option.bind_eq_bind,
    Option.bind_some, hview]
  split
  · next hcd =>
    have hcond : f.values c = (List.range d.length).map (f.store.get c.data) :=
      f.store.values_eq_range hcd
    rw [Store.loop?_columns [d.data, c.data] (fun k =>
      Element.conditioned inverted (f.store.get c.data k) (f.store.get d.data k)) hl]
    · simp only [compute, inputValues, List.map_cons, List.map_nil, Kind.conditioned, hdata, hcond,
        List.length_map, if_true, zipWith_range]
      rfl
    · have hdd : d.data.length = d.length := rfl
      have hdc : c.data.length = d.length := hcd
      simp [hia, hdd, hdc]
    · intro k hk t ht
      rw [ht c.data (by simp), ht d.data (by simp)]
      rfl
  · next hcd =>
    have hone := hc.resolve_right hcd
    have hpos : 0 < c.data.length := by
      rw [Pipe.length] at hone
      omega
    have hcond : f.values c = [f.store.get c.data 0] := f.store.values_one hone
    have hne : ¬ 1 = d.length := fun hd => hcd (hone.trans hd)
    simp only [Store.load?_eq hpos, Option.bind_some, compute, inputValues, List.map_cons,
      List.map_nil, Kind.conditioned, hcond, hdata, List.length_map, List.length_range,
      List.length_singleton, if_neg hne, List.headD_cons]
    rfl

theorem compute?_scalerOverflow {last overflows : Span}
    (h : InRange f.store.slots ⟨[i], [o], gate, .scalerOverflow last overflows⟩) :
    compute? ⟨[i], [o], gate, .scalerOverflow last overflows⟩ f =
      some (compute ⟨[i], [o], gate, .scalerOverflow last overflows⟩ f) := by
  obtain ⟨_, _, hi, ho, hlast, hover, hl⟩ := h.shaped
  cases hi
  cases ho
  have hin : i.Even := h.even i (by simp)
  have hmem : ∀ q ∈ [last, overflows], q ∈ (Kind.scalerOverflow last overflows).memory :=
    fun q => id
  have hmo : ∀ q ∈ [last, overflows], q.Apart o.data := fun q hq =>
    h.output_apart_memory (List.mem_singleton_self o) o.data_mem_spans (hmem q hq)
  have hio : ∀ p ∈ i.spans, p.Apart o.data := fun p hp =>
    h.input_apart (List.mem_singleton_self i) hp (data_mem_owned (List.mem_singleton_self o))
  have him : ∀ p ∈ i.spans, ∀ q ∈ [last, overflows], p.Apart q := fun p hp q hq =>
    h.input_apart (List.mem_singleton_self i) hp (memory_mem_owned (hmem q hq))
  have hlo : last.Apart overflows := by simpa [Kind.memory] using h.memory_apart
  have hview := h.view?_eq [i.data, i.upper, o.data, last, overflows]
    (by simp [reach, owned, Pipe.spans, Kind.memory])
  have hdata : f.values i = (List.range i.length).map (f.store.get i.data) := rfl
  have hupper := f.store.values_eq_range hin.2
  have hold := f.store.values_eq_range hlast
  have hcount := f.store.values_eq_range hover
  obtain ⟨count, hcounts⟩ : ∃ count : Nat → Value, count = fun k =>
    Element.overflows (f.store.get overflows k) (f.store.get last k) (f.store.get i.data k) :=
    ⟨_, rfl⟩
  have hd : i.data.length = i.length := rfl
  have hod : o.data.length = i.length := hl
  simp only [compute?, List.getElem?_cons_zero, Option.bind_eq_bind, Option.bind_some, hview]
  rw [Store.loop?_rounds [
    ⟨o.data, fun k => Element.unwrapped (f.store.get i.upper k) (count k) (f.store.get i.data k)⟩,
    ⟨overflows, count⟩,
    ⟨last, fun k => Element.remembered true (f.store.get last k) (f.store.get i.data k)⟩]
    [i.data, last, overflows, i.upper]]
  · simp only [compute, inputValues, List.map_cons, List.map_nil, List.headD_cons, firstInput,
      hdata, hupper, hold, hcount, zip3_range, zipWith_range, hcounts]
    rfl
  · simp [(hmo last (by simp)).symm, (hmo overflows (by simp)).symm, hlo.symm]
  · simp [hod, hlast, hover]
  · have hil := him i.data i.data_mem_spans
    have hiu := him i.upper (by simp [Pipe.spans])
    have hdo := hio i.data i.data_mem_spans
    have huo := hio i.upper (by simp [Pipe.spans])
    simp [hil, hiu, hdo, huo, hmo, hlo, hlo.symm, hd, hlast, hover, hin.2]
  · intro k hk t ht
    have hod : k < o.data.length := hod.symm ▸ hk
    simp only [ht i.data (by simp), ht last (by simp), ht overflows (by simp),
      ht i.upper (by simp), Option.bind_some, Store.save?_eq _ hod, Store.save?_eq _ (hover ▸ hk),
      Store.save?_eq _ (hlast ▸ hk), Store.setAll, List.foldl_cons, List.foldl_nil, hcounts]

theorem compute?_histograms {hs : List Histogram} {outputs : List Pipe}
    (h : InRange f.store.slots ⟨[i], outputs, gate, .histograms hs⟩) :
    compute? ⟨[i], outputs, gate, .histograms hs⟩ f =
      some (compute ⟨[i], outputs, gate, .histograms hs⟩ f) := by
  obtain ⟨_, hi, -, hlen, hb⟩ := h.shaped
  have hview := h.view?_eq [i.data] (by simp [reach, Pipe.spans])
  have hd : ∀ k ∈ hs, k.data.stop ≤ f.store.slots := fun k hk =>
    h.bins_stop_le (List.mem_map_of_mem hk)
  simp only [compute?, List.getElem?_cons_zero, Option.bind_eq_bind, Option.bind_some, hview,
    Histogram.fillEach?_eq hb hd]
  rfl

theorem compute?_planeHistogram {x y : Pipe} {p : PlaneHistogram} {outputs : List Pipe}
    (h : InRange f.store.slots ⟨[x, y], outputs, gate, .planeHistogram p⟩) (hx : x.length = 1)
    (hy : y.length = 1) : compute? ⟨[x, y], outputs, gate, .planeHistogram p⟩ f =
      some (compute ⟨[x, y], outputs, gate, .planeHistogram p⟩ f) := by
  obtain ⟨_, _, -, -, -, -, hxb, hyb, hl⟩ := h.shaped
  have hexact : p.xBins * p.yBins < Word.size 64 := h.exact _ rfl
  have hd : p.data.stop ≤ f.store.slots := h.bins_stop_le (List.mem_singleton_self p.data)
  rw [Nat.mod_eq_of_lt hexact] at hl
  simp only [compute?, h.pair?_eq hx hy, compute, inputValues_pair hx hy, pairOf?,
    Option.bind_eq_bind, Option.bind_some]
  split
  · rw [PlaneHistogram.fill?_eq hxb hyb hl hd]
    rfl
  · rfl

end Kinds

/-- A step finds all that it looks for, and makes what the plain step makes. -/
theorem compute?_eq (h : InRange f.store.slots op) : op.compute? f = some (op.compute f) := by
  have hin := inputs_subset_reach op
  have hout := outputs_subset_reach op
  have hs := h.shaped
  obtain ⟨inputs, outputs, gate, kind⟩ := op
  cases kind with
  | calibration factors =>
    obtain ⟨i, o, rfl, rfl, -⟩ := hs
    exact h.compute?_calibration
  | keepPrevious previous keepValid =>
    obtain ⟨i, o, rfl, rfl, -⟩ := hs
    exact h.compute?_keepPrevious
  | difference =>
    obtain ⟨a, b, o, rfl, rfl, hab, hl⟩ := hs
    simp only [compute?, h.zip?_eq hab hl]
    rfl
  | arrayMap mappings =>
    obtain ⟨o, rfl, -⟩ := hs
    have hview := h.view?_eq (o.data :: inputs.map Pipe.data)
      (List.cons_subset.2 ⟨hout (List.mem_singleton_self o.data), hin⟩)
    simp only [compute?, List.getElem?_cons_zero, Option.bind_eq_bind, Option.bind_some, hview]
    rfl
  | equation e =>
    obtain ⟨a, b, o, rfl, rfl, hab, hl⟩ := hs
    simp only [compute?, h.zip?_eq hab hl]
    rfl
  | aggregate r w =>
    obtain ⟨i, o, rfl, rfl, -⟩ := hs
    exact h.compute?_aggregate
  | rangeFilter w inverted =>
    obtain ⟨i, o, rfl, rfl, -⟩ := hs
    have hview := h.view?_eq [i.data, o.data] (by simp [reach, owned, Pipe.spans])
    simp only [compute?, List.getElem?_cons_zero, Option.bind_eq_bind, Option.bind_some, hview]
    rfl
  | rectangleFilter x y junction =>
    obtain ⟨a, b, o, rfl, rfl, -⟩ := hs
    exact h.compute?_rectangleFilter
  | conditionFilter inverted =>
    obtain ⟨d, c, o, rfl, rfl, -⟩ := hs
    exact h.compute?_conditionFilter
  | scalerOverflow last overflows =>
    obtain ⟨i, o, rfl, rfl, -⟩ := hs
    exact h.compute?_scalerOverflow
  | expression e =>
    have hview := h.view?_eq (inputs.map Pipe.data ++ outputs.map Pipe.data)
      (List.append_subset.2 ⟨hin, hout⟩)
    simp only [compute?, Option.bind_eq_bind, Option.bind_some, hview]
    rfl
  | histograms hs =>
    obtain ⟨i, rfl, -⟩ := hs
    exact h.compute?_histograms
  | planeHistogram p =>
    obtain ⟨x, y, rfl, -, hx, hy, -⟩ := hs
    exact h.compute?_planeHistogram hx hy
  | rateMonitor m =>
    obtain ⟨i, rfl, -⟩ := hs
    have hview := h.view?_eq [i.data, m.hitCounts]
      (by simp [reach, owned, Pipe.spans, Kind.memory])
    simp only [compute?, List.getElem?_cons_zero, Option.bind_eq_bind, Option.bind_some, hview]
    rfl
  | exportSink s =>
    have hview := h.view?_eq (inputs.map Pipe.data) hin
    by_cases hc : s.hasCondition = true
    · obtain ⟨hne, -, hlast⟩ := hs
      have hgate := List.getLast?_eq_some_getLast hne
      have hone := h.view?_eq [(inputs.getLast hne).data] (List.cons_subset.2
        ⟨hin (List.mem_map_of_mem (List.getLast_mem hne)), List.nil_subset _⟩)
      have hpos : 0 < (inputs.getLast hne).data.length :=
        Nat.pos_of_ne_zero (hlast hc _ hgate)
      simp only [compute?, hc, if_true, hgate, Option.bind_eq_bind, Option.bind_some, hone,
        Store.load?_eq hpos, hview]
      rfl
    · simp only [compute?, hc, Option.bind_eq_bind, Option.bind_some, hview]
      rfl
  | intervalCondition intervals bit =>
    obtain ⟨i, rfl, -⟩ := hs
    have hview := h.view?_eq [i.data] (by simp [reach, Pipe.spans])
    simp only [compute?, List.getElem?_cons_zero, Option.bind_eq_bind, Option.bind_some, hview]
    rfl
  | rectangleCondition x y bit =>
    obtain ⟨a, b, rfl, -, ha, hb⟩ := hs
    simp only [compute?, h.pair?_eq ha hb, compute, inputValues_pair ha hb, pairOf?]
    rfl
  | polygonCondition polygon bit =>
    obtain ⟨a, b, rfl, -, ha, hb, -⟩ := hs
    simp only [compute?, h.pair?_eq ha hb, compute, inputValues_pair ha hb, pairOf?]
    rfl

theorem step?_eq (h : InRange f.store.slots op) : op.step? f = some (op.step f) := by
  rw [step?, step]
  split
  · exact h.compute?_eq
  · rw [h.view?_eq _ (outputs_subset_reach op)]
    rfl

theorem hidden_subset_reach (op : Operator) : op.kind.memory ++ op.kind.bins ⊆ op.reach := by
  rw [reach, owned, List.append_assoc]
  exact List.subset_append_of_subset_right _ (List.subset_append_right _ _)

theorem beginRun?_eq (h : InRange f.store.slots op) : op.beginRun? f = some (op.beginRun f) := by
  rw [beginRun?, h.view?_eq _ (hidden_subset_reach op)]
  rfl

theorem tick?_eq (h : InRange f.store.slots op) : op.tick? f.store = some (op.tick f.store) := by
  have htick : op.kind.memory ⊆ op.reach :=
    List.Subset.trans (List.subset_append_left _ _) (hidden_subset_reach op)
  rw [tick?, h.view?_eq _ htick]
  rfl

theorem fits_step (h : InRange f.store.slots op) (hf : f.filler.Fits f.store.slots) :
    (op.step f).2.filler.Fits f.store.slots := by
  obtain ⟨k, cs, hr⟩ := op.exists_response f
  rw [hr.step_eq f (.refl _ f)]
  have hall : ∀ (cs : List Change) (g : Frame), (∀ c ∈ cs, op.Makes c) →
      g.filler.Fits f.store.slots → (Change.applyAll cs g).filler.Fits f.store.slots := by
    intro cs
    induction cs with
    | nil => exact fun g _ hg => hg
    | cons c cs ih =>
      intro g hcs hg
      obtain ⟨hc, hcs⟩ := List.forall_mem_cons.1 hcs
      refine ih (c.apply g) hcs ?_
      cases c with
      | fill data bin => exact hg.increment (h.bins_stop_le hc) bin
      | _ => exact hg
  exact hall cs f hr.makes hf

end InRange

end Operator

end Readout
