import Readout.Proofs.Checked.Range
import Readout.Proofs.Operator.Renewal

/-!
# Results of open steps

What an open step puts into an element of an output is a function of the element's number and of
the store that the step begins with. Each kind with outputs, but for expressions, has its own one.
-/
namespace Readout.Operator

/-- What an open step makes of element `i` of the output. -/
def result (op : Operator) (s : Store) (i : Nat) : Value :=
  match op.kind, op.inputs with
  | .calibration factors, [p] => Element.calibrated (s.get p.data i) (s.get p.lower i)
      (s.get op.firstOutput.lower i) (s.get factors i)
  | .keepPrevious previous _, _ => s.get previous i
  | .difference, [a, b] => Element.difference (s.get a.data i) (s.get b.data i)
  | .arrayMap mappings, ps =>
    ((mappings[i]?).bind (mapped? (ps.map fun p => s.values p.data))).getD Value.invalid
  | .equation e, [a, b] => Element.equation e (s.get a.data i) (s.get b.data i)
  | .aggregate r w, [p] => Kind.aggregated r w (s.values p.data) (s.values p.lower) (s.values p.upper)
  | .rangeFilter w inverted, [p] => Element.inRange w inverted (s.get p.data i)
  | .rectangleFilter x y junction, [a, b] =>
    if Kind.rectangle junction (x.admits (s.get a.data 0)) (y.admits (s.get b.data 0)) then Value.one
    else Value.invalid
  | .conditionFilter inverted, [d, c] =>
    Element.conditioned inverted (s.get c.data (if c.length = d.length then i else 0)) (s.get d.data i)
  | .scalerOverflow last overflows, [p] => Element.unwrapped (s.get p.upper i)
      (Element.overflows (s.get overflows i) (s.get last i) (s.get p.data i)) (s.get p.data i)
  | _, _ => Value.invalid

namespace InRange

variable {slots : Nat} {op : Operator} {f : Frame} {i k : Nat}

theorem output_stop_le (h : InRange slots op) {o : Pipe} (ho : o ∈ op.outputs) : o.data.stop ≤ slots :=
  h.fits _ (outputs_subset_reach op (List.mem_map_of_mem ho))

section Kinds

variable {p a b o : Pipe} {gate : Option Nat}

theorem get_write {n : Nat} {g : Nat → Value} (hl : o.length = n)
    (hfit : o.data.stop ≤ f.store.slots) (hi : i < o.length) :
    (f.write o ((List.range n).map g)).store.get o.data i = g i := by
  rw [Frame.write, f.store.get_assign _ hi hfit, List.getElem?_map,
    List.getElem?_range (hl ▸ hi)]
  rfl

theorem get_calibration {factors : Span}
    (h : InRange f.store.slots ⟨[p], [o], gate, .calibration factors⟩) (hi : i < o.length) :
    (compute ⟨[p], [o], gate, .calibration factors⟩ f).2.store.get o.data i =
      result ⟨[p], [o], gate, .calibration factors⟩ f.store i := by
  obtain ⟨_, _, hp, ho, hf, hl⟩ := h.shaped
  cases hp
  cases ho
  have hin : p.Even := h.even p (by simp)
  have hon : o.Even := h.even o (by simp)
  have hdata : f.values p = (List.range p.length).map (f.store.get p.data) := rfl
  have hlower := f.store.values_eq_range hin.1
  have hunit := f.store.values_eq_range (hon.1.trans hl)
  have hfactors := f.store.values_eq_range hf
  simp only [compute, inputValues, List.map_cons, List.map_nil, List.headD_cons, firstInput,
    firstOutput, hdata, hlower, hunit, hfactors, zip4_range]
  exact get_write hl (h.output_stop_le (List.mem_singleton_self o)) hi

theorem get_keepPrevious {previous : Span} {keepValid : Bool}
    (h : InRange f.store.slots ⟨[p], [o], gate, .keepPrevious previous keepValid⟩)
    (hi : i < o.length) :
    (compute ⟨[p], [o], gate, .keepPrevious previous keepValid⟩ f).2.store.get o.data i =
      f.store.get previous i := by
  obtain ⟨_, _, hp, ho, hf, hl⟩ := h.shaped
  cases hp
  cases ho
  have hpo : o.data.Apart previous := (h.output_apart_memory (List.mem_singleton_self o)
    o.data_mem_spans (List.mem_singleton_self previous)).symm
  have hkept := f.store.values_eq_range hf
  have hwritten := get_write (f := f) (g := f.store.get previous) hl
    (h.output_stop_le (List.mem_singleton_self o)) hi
  simp only [compute]
  rw [Store.get_assign_of_apart _ _ hpo hi, hkept]
  exact hwritten

theorem get_two (h : InRange f.store.slots op) (ho : op.outputs = [o]) (hab : a.length = b.length)
    (hl : o.length = a.length) (hi : i < o.length) (g : Value → Value → Value) :
    (f.writeFirst op.outputs (List.zipWith g (f.values a) (f.values b))).store.get o.data i =
      g (f.store.get a.data i) (f.store.get b.data i) := by
  have ha : f.values a = (List.range a.length).map (f.store.get a.data) := rfl
  have hb : f.values b = (List.range a.length).map (f.store.get b.data) :=
    f.store.values_eq_range hab.symm
  rw [ha, hb, zipWith_range, ho]
  exact get_write hl (h.output_stop_le (ho ▸ List.mem_singleton_self o)) hi

theorem get_conditionFilter {d c : Pipe} {inverted : Bool}
    (h : InRange f.store.slots ⟨[d, c], [o], gate, .conditionFilter inverted⟩) (hi : i < o.length) :
    (compute ⟨[d, c], [o], gate, .conditionFilter inverted⟩ f).2.store.get o.data i =
      result ⟨[d, c], [o], gate, .conditionFilter inverted⟩ f.store i := by
  obtain ⟨_, _, _, hp, ho, hc, hl⟩ := h.shaped
  cases hp
  cases ho
  have hfit := h.output_stop_le (List.mem_singleton_self o)
  have hdata : f.values d = (List.range d.length).map (f.store.get d.data) := rfl
  by_cases hcd : c.length = d.length
  · have hcond : f.values c = (List.range d.length).map (f.store.get c.data) :=
      f.store.values_eq_range hcd
    simp only [compute, inputValues, List.map_cons, List.map_nil, Kind.conditioned, hdata, hcond,
      List.length_map, if_true, zipWith_range, result, hcd]
    exact get_write hl hfit hi
  · have hcond : f.values c = [f.store.get c.data 0] :=
      f.store.values_one (hc.resolve_right hcd)
    have hne : ¬ 1 = d.length := fun hd => hcd ((hc.resolve_right hcd).trans hd)
    simp only [compute, inputValues, List.map_cons, List.map_nil, Kind.conditioned, hcond, hdata,
      List.length_map, List.length_range, List.length_singleton, if_neg hne, if_neg hcd,
      List.headD_cons, List.map_map, result]
    exact get_write hl hfit hi

theorem get_scalerOverflow {last overflows : Span}
    (h : InRange f.store.slots ⟨[p], [o], gate, .scalerOverflow last overflows⟩)
    (hi : i < o.length) :
    (compute ⟨[p], [o], gate, .scalerOverflow last overflows⟩ f).2.store.get o.data i =
        result ⟨[p], [o], gate, .scalerOverflow last overflows⟩ f.store i ∧
      (compute ⟨[p], [o], gate, .scalerOverflow last overflows⟩ f).2.store.get overflows i =
        Element.overflows (f.store.get overflows i) (f.store.get last i) (f.store.get p.data i) ∧
      (compute ⟨[p], [o], gate, .scalerOverflow last overflows⟩ f).2.store.get last i =
        Element.remembered true (f.store.get last i) (f.store.get p.data i) := by
  obtain ⟨_, _, hp, ho, hlast, hover, hl⟩ := h.shaped
  cases hp
  cases ho
  have hin : p.Even := h.even p (by simp)
  have hmo : ∀ q ∈ [last, overflows], o.data.Apart q := fun q hq =>
    (h.output_apart_memory (List.mem_singleton_self o) o.data_mem_spans hq).symm
  have hlo : last.Apart overflows := by simpa [Kind.memory] using h.memory_apart
  have hdata : f.values p = (List.range p.length).map (f.store.get p.data) := rfl
  have hupper := f.store.values_eq_range hin.2
  have hold := f.store.values_eq_range hlast
  have hcount := f.store.values_eq_range hover
  have hiv : i < overflows.length := by omega
  have hfit : ∀ q ∈ [last, overflows], q.stop ≤ f.store.slots := fun q hq =>
    h.fits _ (List.mem_append_right _ (memory_mem_owned hq))
  simp only [compute, inputValues, List.map_cons, List.map_nil, List.headD_cons, firstInput,
    hdata, hupper, hold, hcount, zip3_range, zipWith_range, Frame.writeFirst]
  refine ⟨?_, ?_, ?_⟩
  · rw [Store.get_assign_of_apart _ _ (hmo last (by simp)) hi,
      Store.get_assign_of_apart _ _ (hmo overflows (by simp)) hi]
    exact get_write hl (h.output_stop_le (List.mem_singleton_self o)) hi
  · rw [Store.get_assign_of_apart _ _ hlo.symm hiv, Store.get_assign _ _ hiv,
      List.getElem?_map, List.getElem?_range (by omega)]
    · rfl
    · simpa [Frame.write, Span.stop] using hfit overflows (by simp)
  · rw [Store.get_assign _ _ (by omega), List.getElem?_map, List.getElem?_range (by omega)]
    · rfl
    · simpa [Frame.write, Span.stop] using hfit last (by simp)

end Kinds

/-- An open step gives every element of the output its result, whatever it held before. -/
theorem get_compute (h : InRange f.store.slots op) (hx : op.kind.isExpression = false) {o : Pipe}
    (ho : o ∈ op.outputs) (hi : i < o.length) :
    (op.compute f).2.store.get o.data i = op.result f.store i := by
  have hs := h.shaped
  obtain ⟨inputs, outputs, gate, kind⟩ := op
  cases kind with
  | calibration factors =>
    obtain ⟨p, q, rfl, rfl, -⟩ := hs
    obtain rfl : o = q := List.mem_singleton.1 ho
    exact h.get_calibration hi
  | keepPrevious previous keepValid =>
    obtain ⟨p, q, rfl, rfl, -⟩ := hs
    obtain rfl : o = q := List.mem_singleton.1 ho
    exact h.get_keepPrevious hi
  | difference =>
    obtain ⟨a, b, q, rfl, rfl, hab, hl⟩ := hs
    obtain rfl : o = q := List.mem_singleton.1 ho
    exact h.get_two rfl hab hl hi _
  | arrayMap mappings =>
    obtain ⟨q, rfl, hl⟩ := hs
    obtain rfl : o = q := List.mem_singleton.1 ho
    have hfit := h.output_stop_le (List.mem_singleton_self o)
    have hm : i < mappings.length := hl ▸ hi
    simp only [compute, Frame.writeFirst, Frame.write, result]
    rw [f.store.get_assign _ hi hfit, List.getElem?_map, List.getElem?_eq_getElem hm]
    rfl
  | equation e =>
    obtain ⟨a, b, q, rfl, rfl, hab, hl⟩ := hs
    obtain rfl : o = q := List.mem_singleton.1 ho
    exact h.get_two rfl hab hl hi _
  | aggregate r w =>
    obtain ⟨p, q, rfl, rfl, hl⟩ := hs
    obtain rfl : o = q := List.mem_singleton.1 ho
    have hzero : i = 0 := by omega
    subst hzero
    exact f.store.get_assign _ hi (h.output_stop_le (List.mem_singleton_self o))
  | rangeFilter w inverted =>
    obtain ⟨p, q, rfl, rfl, hl⟩ := hs
    obtain rfl : o = q := List.mem_singleton.1 ho
    have hdata : f.values p = (List.range p.length).map (f.store.get p.data) := rfl
    simp only [compute, inputValues, List.map_cons, List.map_nil, List.headD_cons, hdata,
      List.map_map, result]
    exact get_write hl (h.output_stop_le (List.mem_singleton_self o)) hi
  | rectangleFilter x y junction =>
    obtain ⟨a, b, q, rfl, rfl, ha, hb, hl⟩ := hs
    obtain rfl : o = q := List.mem_singleton.1 ho
    have hzero : i = 0 := by omega
    subst hzero
    simp only [compute, inputValues_pair ha hb, pairOf?]
    exact f.store.get_assign _ hi (h.output_stop_le (List.mem_singleton_self o))
  | conditionFilter inverted =>
    obtain ⟨d, c, q, rfl, rfl, -⟩ := hs
    obtain rfl : o = q := List.mem_singleton.1 ho
    exact h.get_conditionFilter hi
  | scalerOverflow last overflows =>
    obtain ⟨p, q, rfl, rfl, -⟩ := hs
    obtain rfl : o = q := List.mem_singleton.1 ho
    exact (h.get_scalerOverflow hi).1
  | expression e => cases hx
  | histograms hs' => obtain ⟨_, -, rfl, -⟩ := hs; cases ho
  | planeHistogram p => obtain ⟨_, _, -, rfl, -⟩ := hs; cases ho
  | rateMonitor m => obtain ⟨_, -, rfl, -⟩ := hs; cases ho
  | exportSink s => obtain ⟨-, rfl, -⟩ := hs; cases ho
  | intervalCondition intervals bit => obtain ⟨_, -, rfl, -⟩ := hs; cases ho
  | rectangleCondition x y bit => obtain ⟨_, _, -, rfl, -⟩ := hs; cases ho
  | polygonCondition polygon bit => obtain ⟨_, _, -, rfl, -⟩ := hs; cases ho

end InRange

end Readout.Operator
