import Readout.Proofs.Graph.Moments
import Readout.Proofs.Graph.Summaries

/-!
# Membership in windows

Several kinds of operators ask which elements of their inputs are valid and in a window: aggregates
count them, filters let them pass or hold them back, conditions set a bit for each. `Kind.Leaves`
says what the end of an event leaves of an operator of a kind that computed in it. For all of these
kinds this is a matter of `Window.admits` alone, so they agree with each other (`tests_agree`).
-/
namespace Readout

namespace Element

variable {w : Window Value} {v : Value}

theorem isValid_inRange : (inRange w false v).isValid = w.admits v := by
  cases hv : v.isValid <;> cases hc : w.contains v <;> simp [inRange, Window.admits, hv, hc] <;> rfl

/-- An inverted filter holds back what the other one lets pass. -/
theorem isValid_inRange_true :
    (inRange w true v).isValid = (v.isValid && !(inRange w false v).isValid) := by
  cases hv : v.isValid <;> cases hc : w.contains v <;> simp [inRange, hv, hc] <;> rfl

theorem inRange_of_isValid {inverted : Bool} (h : (inRange w inverted v).isValid = true) :
    inRange w inverted v = v := by
  rw [inRange] at h ⊢
  split at h
  · next hpass => exact if_pos hpass
  · cases h

end Element

theorem Window.orLimits_eq {w : Window Value} (hmin : w.min.isNaN = false)
    (hmax : w.max.isNaN = false) (lower upper : Value) : w.orLimits lower upper = w := by
  simp [orLimits, hmin, hmax]

namespace Kind

theorem length_selected {w : Window Value} (hmin : w.min.isNaN = false)
    (hmax : w.max.isNaN = false) (s : Store) {p : Pipe} (hp : p.Even) :
    (selected w (s.values p.data) (s.values p.lower) (s.values p.upper)).length =
      (s.values p.data).countP w.admits := by
  have hdata : s.values p.data = (List.range p.length).map (s.get p.data) := rfl
  rw [selected_eq_range w s hp, List.length_map, hdata, List.countP_map,
    List.countP_eq_length_filter]
  simp only [Window.orLimits_eq hmin hmax]
  rfl

/-- In some run of a graph an operator of the kind computed on the given contents of its inputs, and
the end of the event has left the given contents of its outputs and the given bits. -/
inductive Leaves (kind : Kind) (ins : List (List Value)) :
    List (List Value) → ConditionBits → Prop
  | endEvent {g : Graph} (hg : g.Reached) {event place : Nat} {op : Operator} {s : Slot}
      (hop : g.occupant? event place = some op) (hkind : op.kind = kind)
      (hmoment : g.moment? event place (.during (.endEvent event)) = some (.step true ins))
      (hs : (g.endEvent event).slots[event]? = some s) :
      Leaves kind ins (op.outputs.map ((g.endEvent event).frame s).values) s.bits

/-- Every operator whose gate is open when its event ends leaves something. -/
theorem exists_leaves {g : Graph} (hg : g.Reached) {event place : Nat} {kind : Kind}
    {ins : List (List Value)} (hkind : (g.occupant? event place).map Operator.kind = some kind)
    (hmoment : g.moment? event place (.during (.endEvent event)) = some (.step true ins)) :
    ∃ outs bits, kind.Leaves ins outs bits := by
  obtain ⟨op, hop, hkind⟩ := Option.map_eq_some_iff.1 hkind
  obtain ⟨s, hs, -⟩ := Option.bind_eq_some_iff.1 hop
  have hend : (g.endEvent event).slots[event]? = some (Graph.endEventSlot g s).2 := by
    rw [Graph.endEvent, Graph.slots_onSlot Graph.keeps_endEventSlot, if_pos rfl, hs]
    rfl
  exact ⟨_, _, .endEvent hg hop hkind hmoment hend⟩

end Kind

namespace Operator

/-- An operator computes on the given contents in the first frame, and nothing that happens from
then on to the second one touches what belongs to it. -/
structure Computed (op : Operator) (ins : List (List Value)) (during after : Frame) : Prop where
  inRange : InRange during.store.slots op
  room : during.store.slots < Word.size 32
  held : ∀ bit, op.OwnsBit bit → bit < during.bits.length
  inputs : op.inputValues during = ins
  agree : (op.compute during).2.AgreeOn op.domain after

theorem computed_endEvent {g : Graph} (hg : g.Settled) {event place : Nat} {op : Operator}
    {t : Slot} {ins : List (List Value)} (hop : g.occupant? event place = some op)
    (hb : op.kind.bins = [])
    (hmoment : g.moment? event place (.during (.endEvent event)) = some (.step true ins))
    (ht : (g.endEvent event).slots[event]? = some t) :
    ∃ during, op.Computed ins during ((g.endEvent event).frame t) := by
  obtain ⟨s, hs, hslot⟩ := Option.bind_eq_some_iff.1 hop
  obtain ⟨n, hn, rfl⟩ := Option.map_eq_some_iff.1 hslot
  have hmem := List.mem_of_getElem? hs
  have ho : n.node.operator ∈ s.nodes := List.mem_map_of_mem (List.mem_of_getElem? hn)
  let during := Slot.passed (s.operators.take place) (g.frame s)
  obtain ⟨hopen, hins⟩ : n.node.operator.isOpen during.bits = true ∧
      n.node.operator.inputValues during = ins := by
    simpa [Graph.moment?, hs, hn] using hmoment
  obtain ⟨hfront, hback⟩ := hg.agree_step hmem (Slot.split_operators hn) hb
  have hend : (g.endEvent event).frame t =
      (Graph.endEventSlot g s).1.frame (Graph.endEventSlot g s).2 := by
    rw [Graph.endEvent, Graph.slots_onSlot Graph.keeps_endEventSlot, if_pos rfl, hs] at ht
    obtain rfl := Option.some.inj ht
    rw [Graph.endEvent, Graph.onSlot_of_some hs]
    rfl
  refine ⟨during, ?_, ?_, fun bit hbit => ?_, hins, ?_⟩
  · exact hfront.store.slots_eq ▸ hg.inRange s hmem _ ho hb
  · exact hfront.store.slots_eq ▸ hg.room
  · exact hfront.length_eq ▸ (hg.guarded s hmem).held _ ho bit hbit
  · rw [hend]
    rwa [step, if_pos hopen] at hback

variable {op : Operator} {ins : List (List Value)} {during after : Frame}

theorem Computed.values_output (h : op.Computed ins during after)
    (hx : op.kind.isExpression = false) {o : Pipe} (ho : o ∈ op.outputs) :
    after.values o = (List.range o.length).map (op.result during.store) := by
  refine List.map_congr_left fun i hi => ?_
  have hlt := List.mem_range.1 hi
  rw [← h.inRange.get_compute hx ho hlt]
  exact (h.agree.store.get_eq ⟨o.data, output_mem_ground ho, Nat.le_add_right _ _,
    Nat.add_lt_add_left hlt _⟩).symm

theorem Computed.test (h : op.Computed ins during after) {first : Nat} (bit : Nat)
    (hf : op.kind.firstBit? = some first) (hl : first ≤ bit)
    (hu : bit < first + op.kind.bitCount) :
    after.bits.test bit = true ↔ op.kind.Passes ins (bit - first) := by
  have hown : op.OwnsBit bit := ⟨first, hf, hl, hu⟩
  rw [← h.agree.bits bit hown, test_compute h.inRange.shaped hf hl hu (h.held bit hown), h.inputs]

end Operator

namespace Kind.Leaves

variable {kind : Kind} {ins outs : List (List Value)} {xs : List Value} {bits : ConditionBits}
  {w x y : Window Value} {u v : Value}

theorem computed (h : kind.Leaves ins outs bits) (hb : kind.bins = []) :
    ∃ inputs outputs gate during after,
      Operator.Computed ⟨inputs, outputs, gate, kind⟩ ins during after ∧
        outs = outputs.map after.values ∧ bits = after.bits := by
  obtain @⟨g, hg, event, place, op, s, hop, rfl, hmoment, hs⟩ := h
  obtain ⟨during, hcomputed⟩ := Operator.computed_endEvent hg.settled hop hb hmoment hs
  exact ⟨_, _, _, _, _, hcomputed, rfl, rfl⟩

theorem multiplicity (h : (Kind.aggregate .multiplicity w).Leaves [xs] outs bits)
    (hmin : w.min.isNaN = false) (hmax : w.max.isNaN = false) :
    outs = [[Value.ofNat (xs.countP w.admits)]] ∧ xs.countP w.admits < 2 ^ 53 := by
  obtain ⟨inputs, outputs, gate, during, after, hc, rfl, -⟩ := h.computed rfl
  obtain ⟨p, o, rfl, rfl, hl⟩ := hc.inRange.shaped
  obtain rfl : during.values p = xs := List.singleton_inj.1 hc.inputs
  have hroom : p.data.length < Word.size 32 := by
    have hstop := hc.inRange.fits p.data (by simp [Operator.reach, Pipe.spans])
    exact ((Nat.le_add_left _ _).trans hstop).trans_lt hc.room
  have hcount := Kind.length_selected hmin hmax during.store (hc.inRange.even p (by simp))
  constructor
  · rw [List.map_singleton, hc.values_output rfl (List.mem_singleton_self o), hl]
    exact congrArg (fun n => [[Value.ofNat n]]) hcount
  · have hle := (during.values p).countP_le_length (p := w.admits)
    rw [Frame.values, during.store.length_values] at hle
    exact (hle.trans_lt hroom).trans (by decide)

theorem rangeFilter {inverted : Bool} (h : (Kind.rangeFilter w inverted).Leaves [xs] outs bits) :
    outs = [xs.map (Element.inRange w inverted)] := by
  obtain ⟨inputs, outputs, gate, during, after, hc, rfl, -⟩ := h.computed rfl
  obtain ⟨p, o, rfl, rfl, hl⟩ := hc.inRange.shaped
  obtain rfl : during.values p = xs := List.singleton_inj.1 hc.inputs
  have hdata : during.values p = (List.range p.length).map (during.store.get p.data) := rfl
  rw [List.map_singleton, hc.values_output rfl (List.mem_singleton_self o), hl, hdata, List.map_map]
  rfl

theorem intervalCondition {first : Nat}
    (h : (Kind.intervalCondition (List.replicate xs.length w) first).Leaves [xs] outs bits) :
    (List.range' first xs.length).map bits.test = xs.map w.admits := by
  obtain ⟨inputs, outputs, gate, during, after, hc, -, rfl⟩ := h.computed rfl
  refine List.ext_getElem (by simp) fun i _ hi => ?_
  rw [List.length_map] at hi
  have htest := hc.test (first + i) rfl (Nat.le_add_right first i)
    (by simpa [bitCount] using hi)
  simp only [Passes, Nat.add_sub_cancel_left, List.headD_cons, List.getElem?_replicate, if_pos hi,
    List.getElem?_eq_getElem hi, Option.mem_some_iff, exists_eq_left'] at htest
  simpa using Bool.eq_iff_iff.2 htest

theorem rectangleFilter (h : (Kind.rectangleFilter x y .both).Leaves [[u], [v]] outs bits) :
    outs = [[if x.admits u && y.admits v then Value.one else Value.invalid]] := by
  obtain ⟨inputs, outputs, gate, during, after, hc, rfl, -⟩ := h.computed rfl
  obtain ⟨p, q, o, rfl, rfl, hp, hq, hl⟩ := hc.inRange.shaped
  have hin := hc.inputs
  simp only [Operator.InRange.inputValues_pair hp hq, List.cons.injEq, and_true] at hin
  obtain ⟨rfl, rfl⟩ := hin
  rw [List.map_singleton, hc.values_output rfl (List.mem_singleton_self o), hl]
  rfl

theorem rectangleCondition {bit : Nat}
    (h : (Kind.rectangleCondition x y bit).Leaves [[u], [v]] outs bits) :
    bits.test bit = (x.admits u && y.admits v) := by
  obtain ⟨inputs, outputs, gate, during, after, hc, -, rfl⟩ := h.computed rfl
  rw [Bool.eq_iff_iff, hc.test bit rfl le_rfl (Nat.lt_succ_self bit)]
  simp [Passes]

end Kind.Leaves

/-- The third list holds the valid values of the first one that are not valid in the second one. -/
structure Remains (xs ys zs : List Value) : Prop where
  lengths : ys.length = xs.length ∧ zs.length = xs.length
  valid_iff : ∀ (i : Nat) (x y z : Value), xs[i]? = some x → ys[i]? = some y → zs[i]? = some z →
    (z.isValid = true ↔ x.isValid = true ∧ y.isValid = false)
  unchanged : ∀ (i : Nat) (x z : Value), xs[i]? = some x → zs[i]? = some z → z.isValid = true →
    z = x

theorem remains_inRange (w : Window Value) (xs : List Value) :
    Remains xs (xs.map (Element.inRange w false)) (xs.map (Element.inRange w true)) := by
  refine ⟨by simp, fun i x y z hx hy hz => ?_, fun i x z hx hz hv => ?_⟩
  · rw [List.getElem?_map, hx] at hy hz
    obtain rfl := Option.some.inj hy
    obtain rfl := Option.some.inj hz
    simp [Element.isValid_inRange_true]
  · rw [List.getElem?_map, hx] at hz
    obtain rfl := Option.some.inj hz
    exact Element.inRange_of_isValid hv

namespace Graph

/-- The kinds of operators that test elements for windows agree with each other, whatever the
elements are: a window without NaNs counts, lets pass and marks the same number of elements, its
inverted filter keeps all other valid elements as they are, and the filter and the condition of a
rectangle come to the same verdict. -/
theorem tests_agree (w : Window Value) (hmin : w.min.isNaN = false) (hmax : w.max.isNaN = false)
    (xs : List Value) (x y : Window Value) (u v : Value) (first bit : Nat)
    (counts passed rest verdict none₁ none₂ : List (List Value))
    (bits₁ bits₂ bits₃ bits₄ marks mark : ConditionBits)
    (hcounts : (Kind.aggregate .multiplicity w).Leaves [xs] counts bits₁)
    (hpassed : (Kind.rangeFilter w false).Leaves [xs] passed bits₂)
    (hrest : (Kind.rangeFilter w true).Leaves [xs] rest bits₃)
    (hmarks : (Kind.intervalCondition (List.replicate xs.length w) first).Leaves [xs] none₁ marks)
    (hverdict : (Kind.rectangleFilter x y .both).Leaves [[u], [v]] verdict bits₄)
    (hmark : (Kind.rectangleCondition x y bit).Leaves [[u], [v]] none₂ mark) :
    ∃ count ys zs valid, counts = [[count]] ∧ passed = [ys] ∧ rest = [zs] ∧ verdict = [[valid]] ∧
      (∃ n : ℕ, count.Denotes n ∧ ys.countP Value.isValid = n ∧
        (List.range' first xs.length).countP marks.test = n) ∧
      Remains xs ys zs ∧ (valid.isValid = true ↔ mark.test bit = true) := by
  obtain ⟨rfl, hroom⟩ := hcounts.multiplicity hmin hmax
  refine ⟨_, _, _, _, rfl, hpassed.rangeFilter, hrest.rangeFilter, hverdict.rectangleFilter,
    ⟨_, Value.denotes_ofNat hroom, ?_, ?_⟩, remains_inRange w xs, ?_⟩
  · rw [List.countP_map]
    exact List.countP_congr fun x _ => by simp [Element.isValid_inRange]
  · have hcount := congrArg (List.countP id) hmarks.intervalCondition
    rwa [List.countP_map, List.countP_map] at hcount
  · rw [hmark.rectangleCondition]
    split
    · next hin => exact iff_of_true rfl hin
    · next hout => exact iff_of_false (by decide) hout

section Sample

open Workbench

/-- The lower bound belongs to the window, the upper one does not. -/
def sampleWindow : Window Value := ⟨.one, .two⟩

/-- One operator of each kind, each of them in an event of its own. -/
def windowed : Graph :=
  let raw : Pipe := ⟨⟨0, 3⟩, ⟨4, 3⟩, ⟨8, 3⟩⟩
  let first : Pipe := ⟨⟨0, 1⟩, ⟨4, 1⟩, ⟨8, 1⟩⟩
  let second : Pipe := ⟨⟨1, 1⟩, ⟨5, 1⟩, ⟨9, 1⟩⟩
  (after 4096 .batched [.pushPipe 3 .zero .two, .assign raw.data [.one, .two, .invalid],
    .makeOperator (.aggregate raw .multiplicity sampleWindow), .addOperator 0 0 none,
    .makeOperator (.rangeFilter raw sampleWindow false), .addOperator 1 0 none,
    .makeOperator (.rangeFilter raw sampleWindow true), .addOperator 2 0 none,
    .makeOperator (.intervalCondition raw (List.replicate 3 sampleWindow)), .addOperator 3 0 none,
    .makeOperator (.rectangleFilter first second sampleWindow sampleWindow .both),
    .addOperator 4 0 none,
    .makeOperator (.rectangleCondition first second sampleWindow sampleWindow),
    .addOperator 5 0 none]).plan.build .fresh

theorem tests_agree_windowed : ∃ counts passed rest marks verdict mark,
    (∃ bits, (Kind.aggregate .multiplicity sampleWindow).Leaves [[.one, .two, .invalid]]
      counts bits) ∧
    (∃ bits, (Kind.rangeFilter sampleWindow false).Leaves [[.one, .two, .invalid]] passed bits) ∧
    (∃ bits, (Kind.rangeFilter sampleWindow true).Leaves [[.one, .two, .invalid]] rest bits) ∧
    (∃ outs, (Kind.intervalCondition (List.replicate 3 sampleWindow) 0).Leaves
      [[.one, .two, .invalid]] outs marks) ∧
    (∃ bits, (Kind.rectangleFilter sampleWindow sampleWindow .both).Leaves [[.one], [.two]]
      verdict bits) ∧
    (∃ outs, (Kind.rectangleCondition sampleWindow sampleWindow 0).Leaves [[.one], [.two]]
      outs mark) ∧
    ∃ count ys zs valid, counts = [[count]] ∧ passed = [ys] ∧ rest = [zs] ∧ verdict = [[valid]] ∧
      (∃ n : ℕ, count.Denotes n ∧ ys.countP Value.isValid = n ∧
        (List.range' 0 3).countP marks.test = n) ∧
      Remains [.one, .two, .invalid] ys zs ∧ (valid.isValid = true ↔ mark.test 0 = true) := by
  have hleaves : ∀ event kind ins, (windowed.occupant? event 0).map Operator.kind = some kind →
      windowed.moment? event 0 (.during (.endEvent event)) = some (.step true ins) →
      ∃ outs bits, kind.Leaves ins outs bits :=
    fun _ _ _ => Kind.exists_leaves ⟨4096, .batched, _, .fresh, [], rfl⟩
  obtain ⟨counts, bits₁, hcounts⟩ := hleaves 0 (.aggregate .multiplicity sampleWindow)
    [[.one, .two, .invalid]] (by with_unfolding_all rfl) (by decide +kernel)
  obtain ⟨passed, bits₂, hpassed⟩ := hleaves 1 (.rangeFilter sampleWindow false)
    [[.one, .two, .invalid]] (by with_unfolding_all rfl) (by decide +kernel)
  obtain ⟨rest, bits₃, hrest⟩ := hleaves 2 (.rangeFilter sampleWindow true)
    [[.one, .two, .invalid]] (by with_unfolding_all rfl) (by decide +kernel)
  obtain ⟨none₁, marks, hmarks⟩ := hleaves 3
    (.intervalCondition (List.replicate 3 sampleWindow) 0) [[.one, .two, .invalid]]
    (by with_unfolding_all rfl) (by decide +kernel)
  obtain ⟨verdict, bits₄, hverdict⟩ := hleaves 4
    (.rectangleFilter sampleWindow sampleWindow .both) [[.one], [.two]]
    (by with_unfolding_all rfl) (by decide +kernel)
  obtain ⟨none₂, mark, hmark⟩ := hleaves 5 (.rectangleCondition sampleWindow sampleWindow 0)
    [[.one], [.two]] (by with_unfolding_all rfl) (by decide +kernel)
  exact ⟨counts, passed, rest, marks, verdict, mark, ⟨_, hcounts⟩, ⟨_, hpassed⟩, ⟨_, hrest⟩,
    ⟨_, hmarks⟩, ⟨_, hverdict⟩, ⟨_, hmark⟩, tests_agree sampleWindow (by decide +kernel)
      (by decide +kernel) [.one, .two, .invalid] sampleWindow sampleWindow .one .two 0 0 counts
      passed rest verdict none₁ none₂ bits₁ bits₂ bits₃ bits₄ marks mark hcounts hpassed hrest
      hmarks hverdict hmark⟩

end Sample

end Graph

end Readout
