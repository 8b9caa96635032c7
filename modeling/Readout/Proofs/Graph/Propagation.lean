import Readout.Proofs.Checked.Run
import Readout.Proofs.Operator.Figures

/-!
# Propagation of invalid values

Makers leave valid factors and counters where the limits of all pipes are valid. So in every state
that an operator comes to, an open step overwrites each element of its output, and the new element
is invalid exactly by the rule of the operator's kind.
-/
namespace Readout

namespace Store

/-- Overwrites several spans, one after the other. -/
def overwrite (s : Store) (writes : List (Span × List Value)) : Store :=
  writes.foldl (fun st (p, vs) => st.assign p vs) s

variable {s : Store} {writes : List (Span × List Value)} {p : Span} {i : Nat}

theorem slots_overwrite (s : Store) (writes : List (Span × List Value)) :
    (s.overwrite writes).slots = s.slots := by
  induction writes generalizing s with
  | nil => rfl
  | cons x writes ih => exact (ih _).trans (s.slots_assign x.1 x.2)

theorem get_overwrite_of_apart (hp : ∀ x ∈ writes, p.Apart x.1) (hi : i < p.length) :
    (s.overwrite writes).get p i = s.get p i := by
  induction writes generalizing s with
  | nil => rfl
  | cons x writes ih =>
    obtain ⟨hx, hp⟩ := List.forall_mem_cons.1 hp
    exact (ih hp).trans (s.get_assign_of_apart x.2 hx hi)

/-- Spans that are apart keep what is written to them. -/
theorem get_overwrite (hapart : (writes.map Prod.fst).Pairwise Span.Apart) {vs : List Value}
    (hp : (p, vs) ∈ writes) {v : Value} (hv : vs[i]? = some v) (hi : i < p.length)
    (hfit : p.stop ≤ s.slots) : (s.overwrite writes).get p i = v := by
  induction writes generalizing s with
  | nil => cases hp
  | cons x writes ih =>
    obtain ⟨hx, hapart⟩ := List.pairwise_cons.1 hapart
    rcases List.mem_cons.1 hp with rfl | hp
    · have hlater : ∀ y ∈ writes, p.Apart y.1 := fun y hy => hx y.1 (List.mem_map_of_mem hy)
      have hhead : (s.assign p vs).get p i = v := by rw [s.get_assign vs hi hfit, hv, Option.getD_some]
      exact (get_overwrite_of_apart hlater hi).trans hhead
    · exact ih hapart hp (by rwa [slots_assign])

/-- Spans that are apart keep what they are filled with. -/
theorem get_fillAll {fills : List (Span × Value)} (hapart : (fills.map Prod.fst).Pairwise Span.Apart)
    {v : Value} (hp : (p, v) ∈ fills) (hi : i < p.length) (hfit : p.stop ≤ s.slots) :
    (s.fillAll fills).get p i = v := by
  induction fills generalizing s with
  | nil => cases hp
  | cons x fills ih =>
    obtain ⟨hx, hapart⟩ := List.pairwise_cons.1 hapart
    rcases List.mem_cons.1 hp with rfl | hp
    · have hlater := (s.fill p v).agree_fillAll (P := (· ∈ p)) fun y hy i hiy hip =>
        hx y.1 (List.mem_map_of_mem hy) i hip hiy
      exact (hlater.get_eq ⟨by omega, by omega⟩).symm.trans (s.get_fill v hi hfit)
    · exact ih hapart hp (by rwa [slots_fill])

end Store

namespace Arena

variable {a b : Arena}

theorem pushFilled_store {length : Nat} {v : Value} {p : Span}
    (h : pushFilled length v a = (.ok p, b)) : b.store = a.store.fill p v := by
  rw [pushFilled_apply] at h
  split at h
  · cases h
  · rcases hp : a.place (length * valueSize) spanAlignment with e | ⟨start, c⟩
    · rw [hp] at h
      cases h
    · rw [hp] at h
      obtain ⟨-, -, rfl⟩ := place_eq_ok hp
      dsimp only at h
      cases hm : Span.make? (start / valueSize) length with
      | none =>
        rw [hm] at h
        cases h
      | some q =>
        rw [hm] at h
        cases h
        rfl

end Arena

theorem Pipe.push_store {a b : Arena} {length : Nat} {lower upper : Value} {p : Pipe}
    (h : push length lower upper a = (.ok p, b)) :
    b.store = a.store.fillAll [(p.data, .invalid), (p.lower, lower), (p.upper, upper)] := by
  obtain ⟨d, a₁, hd, h⟩ := exists_of_bind_apply_eq h
  obtain ⟨l, a₂, hl, h⟩ := exists_of_bind_apply_eq h
  obtain ⟨u, a₃, hu, h⟩ := exists_of_bind_apply_eq h
  cases h
  rw [Arena.pushFilled_store hu, Arena.pushFilled_store hl, Arena.pushFilled_store hd]
  rfl

namespace Operator

variable {a b : Arena} {op : Operator}

/-- What a calibration declares and computes with: its units as limits, and its factors. -/
def calibrationWrites (s : Store) (input out : Pipe) (factors : Span) (units : List (Value × Value)) :
    List (Span × List Value) :=
  [(out.lower, units.map Prod.fst), (out.upper, units.map Prod.snd),
    (factors, (units.zip ((s.values input.lower).zip (s.values input.upper))).map fun (u, l) =>
      calibrationFactor u.1 u.2 l.1 l.2)]

theorem calibrationEach_ok {input : Pipe} {units : List (Value × Value)}
    (h : calibrationEach input units a = (.ok op, b)) :
    ∃ (out : Pipe) (factors : Span) (s : Store), op = make (.calibration factors) [input] [out] ∧
      units.length = input.length ∧
      b.store = s.overwrite (calibrationWrites s input out factors units) := by
  rw [calibrationEach] at h
  split at h
  · cases h
  · next hlen =>
    obtain ⟨out, a₁, hout, h⟩ := exists_of_bind_apply_eq h
    obtain ⟨factors, a₂, hfactors, h⟩ := exists_of_bind_apply_eq h
    cases h
    exact ⟨out, factors, a₂.store, rfl, Decidable.not_not.1 hlen, rfl⟩

theorem scalerOverflow_ok {input : Pipe} (h : scalerOverflow input a = (.ok op, b)) :
    ∃ (last overflows : Span) (out : Pipe) (vs : List Value) (s : Store),
      op = make (.scalerOverflow last overflows) [input] [out] ∧
      b.store = ((s.fill overflows .zero).fillAll [(out.data, .invalid), (out.lower, .zero),
        (out.upper, .largest)]).assign out.lower vs := by
  obtain ⟨last, a₁, hlast, h⟩ := exists_of_bind_apply_eq h
  obtain ⟨overflows, a₂, hover, h⟩ := exists_of_bind_apply_eq h
  obtain ⟨out, a₃, hout, h⟩ := exists_of_bind_apply_eq h
  cases h
  refine ⟨last, overflows, out, a₃.store.values input.lower, a₁.store, rfl, ?_⟩
  rw [← Arena.pushFilled_store hover, ← Pipe.push_store hout]

/-- What a computation makes has no factors or counters. -/
def Plain (x : Alloc Operator) : Prop := ∀ a op b, x a = (.ok op, b) → op.kind.figures = []

namespace Plain

theorem pure (h : op.kind.figures = []) : Plain (Pure.pure op) := by
  intro a op' b hop
  cases hop
  exact h

theorem bind {α : Type} {x : Alloc α} {k : α → Alloc Operator} (hk : ∀ v, Plain (k v)) :
    Plain (x >>= k) := by
  intro a op b h
  obtain ⟨v, c, -, h⟩ := exists_of_bind_apply_eq h
  exact hk v c op b h

theorem check {c : Prop} [Decidable c] {e : Error} {f : PUnit → Alloc Operator} (hf : Plain (f ⟨⟩)) :
    Plain (if c then MonadExcept.throw e >>= f else f ⟨⟩) := by
  intro a op b h
  split at h
  · cases h
  · exact hf a op b h

theorem planeHistogram (x y : Pipe) (xBins yBins : Nat) (xAxis yAxis : Option Axis) :
    Plain (planeHistogram x y xBins yBins xAxis yAxis) := by
  rw [Operator.planeHistogram]
  refine bind fun _ => ?_
  cases xAxis <;> refine bind fun _ => ?_ <;> cases yAxis <;>
    exact bind fun _ => bind fun _ => pure rfl

theorem exportSink (inputs : List Pipe) (condition : Option Pipe) (path : String)
    (format : ExportFormat) (level : Int) : Plain (exportSink inputs condition path format level) := by
  rw [Operator.exportSink]
  exact check (check (check (check (pure rfl))))

theorem make {r : Recipe} (hc : ∀ input units, r ≠ .calibration input units)
    (hs : ∀ input, r ≠ .scalerOverflow input) : Plain r.make := by
  cases r with
  | calibration input units => exact absurd rfl (hc input units)
  | scalerOverflow input => exact absurd rfl (hs input)
  | keepPrevious input keepValid => exact bind fun _ => bind fun _ => pure rfl
  | difference a b =>
    exact bind fun _ => bind fun _ => bind fun _ => bind fun _ => bind fun _ => bind fun _ =>
      bind fun _ => pure rfl
  | arrayMap inputs mappings =>
    exact bind fun _ => bind fun _ => bind fun _ => bind fun _ => pure rfl
  | equation a b e lower upper => exact bind fun _ => bind fun _ => pure rfl
  | aggregate input r w => exact bind fun _ => bind fun _ => bind fun _ => pure rfl
  | rangeFilter input w inverted => exact bind fun _ => pure rfl
  | rectangleFilter x y xWindow yWindow junction => exact bind fun _ => bind fun _ => pure rfl
  | conditionFilter data condition inverted =>
    rw [Recipe.make, Operator.conditionFilter]
    apply check
    exact bind fun _ => pure rfl
  | expression inputs first program =>
    exact bind fun _ => bind fun _ => bind fun _ => pure rfl
  | histograms input bins axis => exact bind fun _ => bind fun _ => bind fun _ => pure rfl
  | planeHistogram x y xBins yBins xAxis yAxis => exact planeHistogram x y xBins yBins xAxis yAxis
  | rateMonitor input samplers mode =>
    rw [Recipe.make, Operator.rateMonitor]
    apply check
    exact bind fun _ => pure rfl
  | exportSink inputs condition path format level =>
    exact exportSink inputs condition path format level
  | intervalCondition input intervals =>
    rw [Recipe.make, Operator.intervalCondition]
    apply check
    exact pure rfl
  | rectangleCondition x y xWindow yWindow => exact bind fun _ => pure rfl
  | polygonCondition x y polygon => exact bind fun _ => check (pure rfl)

end Plain

section Made

variable {s : Store} {i : Nat}

section Overwritten

variable {writes : List (Span × List Value)} {slots : Nat} (h : InRange slots op)
  (hslots : s.slots = slots) (hsub : (writes.map Prod.fst).Sublist op.owned)

include h hsub

include hslots in
/-- A maker writes each span that the operator owns once. -/
theorem get_overwrite_owned {p : Span} {vs : List Value} {v : Value} (hp : (p, vs) ∈ writes)
    (hv : vs[i]? = some v) (hi : i < p.length) : (s.overwrite writes).get p i = v := by
  have howned := hsub.subset (List.mem_map_of_mem (f := Prod.fst) hp)
  exact Store.get_overwrite (h.apart.sublist hsub) hp hv hi
    (hslots ▸ h.fits p (List.mem_append_right _ howned))

theorem get_overwrite_input {p : Pipe} {q : Span} (hp : p ∈ op.inputs) (hq : q ∈ p.spans)
    (hi : i < q.length) : (s.overwrite writes).get q i = s.get q i :=
  Store.get_overwrite_of_apart (fun _ hx =>
    h.input_apart hp hq (hsub.subset (List.mem_map_of_mem (f := Prod.fst) hx))) hi

end Overwritten

/-- The units and the factor of an element of a new calibration. -/
theorem get_calibration_made {input out : Pipe} {factors : Span} {units : List (Value × Value)}
    (hrange : InRange b.store.slots (make (.calibration factors) [input] [out]))
    (hb : b.store = s.overwrite (calibrationWrites s input out factors units)) (hi : i < out.length)
    {u : Value × Value} (hu : units[i]? = some u) :
    b.store.get out.lower i = u.1 ∧ b.store.get out.upper i = u.2 ∧ b.store.get factors i =
      calibrationFactor u.1 u.2 (b.store.get input.lower i) (b.store.get input.upper i) := by
  obtain ⟨_, _, hin, hout, hfactors, hsize⟩ := hrange.shaped
  cases hin
  cases hout
  have hie : input.Even := hrange.even input (by simp [make])
  have hoe : out.Even := hrange.even out (by simp [make])
  have hinput : i < input.length := by omega
  have hslots : s.slots = b.store.slots := by rw [hb, Store.slots_overwrite]
  have hsub : ((calibrationWrites s input out factors units).map Prod.fst).Sublist
      (make (.calibration factors) [input] [out]).owned := List.sublist_cons_self out.data _
  have hlimits : ((s.values input.lower).zip (s.values input.upper))[i]? =
      some (s.get input.lower i, s.get input.upper i) := by
    rw [s.values_eq_range hie.1, s.values_eq_range hie.2, List.zip_map', List.getElem?_map,
      List.getElem?_range hinput, Option.map_some]
  have hboth : (units.zip ((s.values input.lower).zip (s.values input.upper)))[i]? =
      some (u, s.get input.lower i, s.get input.upper i) :=
    List.getElem?_zip_eq_some.2 ⟨hu, hlimits⟩
  rw [hb, get_overwrite_input hrange hsub (List.mem_singleton_self input) input.lower_mem_spans
      (hie.1 ▸ hinput),
    get_overwrite_input hrange hsub (List.mem_singleton_self input) input.upper_mem_spans
      (hie.2 ▸ hinput)]
  refine ⟨?_, ?_, ?_⟩
  · exact get_overwrite_owned hrange hslots hsub List.mem_cons_self
      (by rw [List.getElem?_map, hu]; rfl) (hoe.1 ▸ hi)
  · exact get_overwrite_owned hrange hslots hsub (List.mem_cons_of_mem _ List.mem_cons_self)
      (by rw [List.getElem?_map, hu]; rfl) (hoe.2 ▸ hi)
  · exact get_overwrite_owned hrange hslots hsub
      (List.mem_cons_of_mem _ (List.mem_cons_of_mem _ List.mem_cons_self))
      (by rw [List.getElem?_map, hboth]; rfl) (by omega)

/-- Every factor of a calibration between valid limits is valid. -/
theorem figured_calibration {input out : Pipe} {factors : Span} {units : List (Value × Value)}
    (hrange : InRange b.store.slots (make (.calibration factors) [input] [out]))
    (hlen : units.length = input.length)
    (hb : b.store = s.overwrite (calibrationWrites s input out factors units))
    (hl : ∀ p ∈ [input] ++ [out], b.store.Limited p) :
    (make (.calibration factors) [input] [out]).Figured b.store := by
  intro q hq i hi
  obtain rfl : q = factors := List.mem_singleton.1 hq
  obtain ⟨_, _, hin, hout, hfactors, hsize⟩ := hrange.shaped
  cases hin
  cases hout
  have hie : input.Even := hrange.even input (by simp [make])
  have hoe : out.Even := hrange.even out (by simp [make])
  have hinput : i < input.length := by omega
  have hout : i < out.length := by omega
  obtain ⟨u, hu⟩ : ∃ u, units[i]? = some u := ⟨_, List.getElem?_eq_getElem (by omega)⟩
  obtain ⟨hlower, hupper, hfactor⟩ := get_calibration_made hrange hb hout hu
  have hol := hl out (by simp) out.lower (by simp [Pipe.limits]) i (hoe.1 ▸ hout)
  have hou := hl out (by simp) out.upper (by simp [Pipe.limits]) i (hoe.2 ▸ hout)
  have hil := hl input (by simp) input.lower (by simp [Pipe.limits]) i (hie.1 ▸ hinput)
  have hiu := hl input (by simp) input.upper (by simp [Pipe.limits]) i (hie.2 ▸ hinput)
  rw [hlower] at hol
  rw [hupper] at hou
  rw [hfactor]
  exact Value.isValid_div (Value.isValid_sub hou hol) (Value.isValid_sub hiu hil)

theorem figured_scalerOverflow {input out : Pipe} {last overflows : Span} {vs : List Value}
    (hrange : InRange b.store.slots (make (.scalerOverflow last overflows) [input] [out]))
    (hb : b.store = ((s.fill overflows .zero).fillAll [(out.data, .invalid), (out.lower, .zero),
      (out.upper, .largest)]).assign out.lower vs) :
    (make (.scalerOverflow last overflows) [input] [out]).Figured b.store := by
  intro q hq i hi
  obtain rfl : q = overflows := List.mem_singleton.1 hq
  have hmemory : q ∈ (Kind.scalerOverflow last q).memory := by simp [Kind.memory]
  have happ : ∀ p ∈ out.spans, q.Apart p := fun p hp =>
    hrange.output_apart_memory (List.mem_singleton_self out) hp hmemory
  have hfit : q.stop ≤ s.slots := by
    have hstop := hrange.fits q (List.mem_append_right _ (InRange.memory_mem_owned hmemory))
    rwa [hb, Store.slots_assign, Store.slots_fillAll, Store.slots_fill] at hstop
  have hzero : b.store.get q i = Value.zero := by
    have hafter : (s.fill q .zero).AgreeOn (· ∈ q) b.store := by
      rw [hb]
      refine (Store.agree_fillAll _ fun x hx k hk hkq => ?_).trans
        (Store.agree_assign _ _ fun k hk hkq => happ _ out.lower_mem_spans k hkq hk)
      have hspan : x.1 ∈ out.spans := by
        have hmem := List.mem_map_of_mem (f := Prod.fst) hx
        exact hmem
      exact happ x.1 hspan k hkq hk
    rw [← hafter.get_eq ⟨by omega, by omega⟩, Store.get_fill _ _ hi hfit]
  rw [hzero]
  decide

end Made

end Operator

theorem Recipe.figured_make {r : Recipe} {op : Operator} {a b : Arena}
    (hmake : r.make a = (.ok op, b)) (hrange : op.InRange b.store.slots)
    (hl : ∀ p ∈ op.inputs ++ op.outputs, b.store.Limited p) : op.Figured b.store := by
  cases r with
  | calibration input units =>
    obtain ⟨out, factors, s, rfl, hlen, hb⟩ := Operator.calibrationEach_ok hmake
    exact Operator.figured_calibration hrange hlen hb hl
  | scalerOverflow input =>
    obtain ⟨last, overflows, out, vs, s, rfl, hb⟩ := Operator.scalerOverflow_ok hmake
    exact Operator.figured_scalerOverflow hrange hb
  | _ =>
    have hnone := Operator.Plain.make (by simp) (by simp) _ _ _ hmake
    intro p hp
    rw [hnone] at hp
    cases hp

namespace Operator

/-- An operator with outputs that is no expression has one output, no bins and no file. -/
theorem outputs_eq_singleton {op : Operator} (hs : op.Shaped) (hx : op.kind.isExpression = false)
    {o : Pipe} (ho : o ∈ op.outputs) : op.outputs = [o] ∧ op.kind.planeBins? = none ∧
      op.kind.bins = [] ∧ ∀ s, op.kind ≠ .exportSink s := by
  obtain ⟨inputs, outputs, gate, kind⟩ := op
  cases kind with
  | calibration | keepPrevious | aggregate | rangeFilter =>
    obtain ⟨_, q, -, rfl, -⟩ := hs
    exact ⟨by rw [List.mem_singleton.1 ho], rfl, rfl, fun _ h => Kind.noConfusion h⟩
  | difference | equation =>
    obtain ⟨_, _, q, -, rfl, -⟩ := hs
    exact ⟨by rw [List.mem_singleton.1 ho], rfl, rfl, fun _ h => Kind.noConfusion h⟩
  | arrayMap =>
    obtain ⟨q, rfl, -⟩ := hs
    exact ⟨by rw [List.mem_singleton.1 ho], rfl, rfl, fun _ h => Kind.noConfusion h⟩
  | rectangleFilter | conditionFilter =>
    obtain ⟨_, _, q, -, rfl, -⟩ := hs
    exact ⟨by rw [List.mem_singleton.1 ho], rfl, rfl, fun _ h => Kind.noConfusion h⟩
  | scalerOverflow =>
    obtain ⟨_, q, -, rfl, -⟩ := hs
    exact ⟨by rw [List.mem_singleton.1 ho], rfl, rfl, fun _ h => Kind.noConfusion h⟩
  | expression => cases hx
  | histograms | rateMonitor | intervalCondition => obtain ⟨_, -, rfl, -⟩ := hs; cases ho
  | planeHistogram | rectangleCondition | polygonCondition =>
    obtain ⟨_, _, -, rfl, -⟩ := hs
    cases ho
  | exportSink => obtain ⟨-, rfl, -⟩ := hs; cases ho

/-- What a step looks at is apart from the output that it overwrites. -/
theorem InRange.reads_outside {op : Operator} {slots : Nat} (h : InRange slots op)
    (hx : op.kind.isExpression = false) {o : Pipe} (ho : op.outputs = [o]) {i : Nat}
    (hi : op.reads.slots i) : i ∉ o.data := by
  have hmem : o ∈ op.outputs := ho ▸ List.mem_singleton_self o
  obtain ⟨p, hp, hi⟩ := hi
  have happ : p.Apart o.data := by
    rcases List.mem_append.1 hp with hp | hp
    · obtain ⟨v, hv, hp⟩ := List.mem_flatMap.1 hp
      exact h.input_apart hv hp (data_mem_owned hmem)
    · rw [recalled, Kind.revised_of_not_expression hx, List.append_nil, ho, List.flatMap_singleton]
        at hp
      rcases List.mem_append.1 hp with hp | hp
      · have howned := (List.pairwise_append.1 (List.pairwise_append.1 h.apart).1).1
        rw [ho, List.flatMap_singleton] at howned
        exact ((List.pairwise_cons.1 howned).1 p hp).symm
      · exact h.output_apart_memory hmem o.data_mem_spans hp
  exact happ i hi

end Operator

/-- In every state that an operator comes to, an open step overwrites its outputs, and what the rule
of its kind says is invalid behind the step, and nothing else. -/
theorem Operator.lacks_step_iff (capacity : Nat) (strategy : FillStrategy) (calls : List BuildCall)
    {r : Recipe} {made op : Operator} {a : Arena} {f : Frame} (gate : Option Nat)
    (ho : (Workbench.after capacity strategy calls).Offers r.inputs)
    (hmake : r.make (Workbench.after capacity strategy calls).plan.arena = (.ok made, a))
    (hx : made.kind.isExpression = false)
    (hl : ∀ p ∈ made.inputs ++ made.outputs, a.store.Limited p)
    (hlives : Lives { made with gate := gate } a.store op f.store)
    (hnow : ∀ p ∈ made.inputs ++ made.outputs, f.store.Limited p)
    (hopen : op.isOpen f.bits = true) :
    ∀ o ∈ made.outputs, ∀ i < o.length,
      ((op.step f).2.store.Lacks o.data i ↔ op.Voids f.store i) ∧
        ∀ g : Frame, g.bits = f.bits → g.store.AgreeOn (fun k => k ∉ o.data) f.store →
          (op.step g).2.store.get o.data i = (op.step f).2.store.get o.data i := by
  intro o hmem i hi
  have hsound := (Workbench.sound_after capacity strategy calls).makeOperator ho hmake
  have hshaped := (hsound.operators made List.mem_cons_self).shaped
  obtain ⟨-, hplane, -⟩ := outputs_eq_singleton hshaped hx hmem
  have hrange : InRange a.store.slots made :=
    hsound.inRange_operator List.mem_cons_self fun n hn => by rw [hplane] at hn; cases hn
  have hseated : InRange a.store.slots { made with gate := gate } :=
    ⟨hrange.shaped, hrange.even, hrange.fits, hrange.apart, hrange.alone, hrange.exact⟩
  have hfigured := Recipe.figured_make hmake hrange hl
  obtain ⟨hrest, hslots, hfig⟩ := hlives.spec hseated hfigured
  -- the operator is still the one that was made, in a store of the same size
  have hinputs : op.inputs = made.inputs := by rw [← inputs_resting, hrest]; rfl
  have houtputs : op.outputs = made.outputs := by rw [← outputs_resting, hrest]; rfl
  have hrange : InRange f.store.slots op := hslots ▸ hseated.of_resting hrest
  have hx : op.kind.isExpression = false := (isExpression_of_resting hrest).trans hx
  have hmem : o ∈ op.outputs := houtputs ▸ hmem
  refine ⟨?_, fun g hbits hsame => ?_⟩
  · rw [Store.Lacks, step, if_pos hopen, hrange.get_compute hx hmem hi]
    exact result_eq_false_iff hrange hx (by rwa [hinputs, houtputs]) (hfig.of_resting hrest) hmem hi
  · obtain ⟨hout, -, hbins, hsink⟩ := outputs_eq_singleton hrange.shaped hx hmem
    have halike : op.Indistinct g f :=
      ⟨hsame.mono fun k hk => hrange.reads_outside hx hout hk, fun _ _ => by rw [hbits],
        fun s hs => absurd hs (hsink s)⟩
    have hagree := step_renews halike hbins hrange.shaped hrange.even
      (Kind.revised_of_not_expression hx op.outputs) (fun p hp => ?_) hsame
    · exact hagree.get_eq (.inr ⟨o, hmem, Nat.le_add_right _ i, Nat.add_lt_add_left hi _⟩)
    · rw [hsame.slots_eq]
      exact hrange.output_stop_le hp

section Sample

/-- One pipe of two elements. -/
def pairCalls : List BuildCall := [.pushPipe 2 .zero .two]

def pairPipe : Pipe := ⟨⟨0, 2⟩, ⟨4, 2⟩, ⟨8, 2⟩⟩

def pairRecipe : Recipe := .calibration pairPipe [(.zero, .one), (.zero, .one)]

def pairArena : Arena := (pairRecipe.make (Workbench.after 4096 .direct pairCalls).plan.arena).2

def pairOperator : Operator :=
  .make (.calibration ⟨24, 2⟩) [pairPipe] [⟨⟨12, 2⟩, ⟨16, 2⟩, ⟨20, 2⟩⟩]

/-- The first element is written and the second one is not. -/
def pairFrame : Frame := ⟨pairArena.store.assign pairPipe.data [.one], ⟨[]⟩, .new .direct 0, .fresh⟩

theorem Operator.lacks_step_calibration :
    pairRecipe.make (Workbench.after 4096 .direct pairCalls).plan.arena =
        (.ok pairOperator, pairArena) ∧
      ¬ (pairOperator.step pairFrame).2.store.Lacks ⟨12, 2⟩ 0 ∧
      (pairOperator.step pairFrame).2.store.Lacks ⟨12, 2⟩ 1 := by
  have hmake : pairRecipe.make (Workbench.after 4096 .direct pairCalls).plan.arena =
      (.ok pairOperator, pairArena) := rfl
  have hlives : Lives { pairOperator with gate := none } pairArena.store pairOperator
      pairFrame.store := by
    refine .others .made (pairArena.store.agree_assign _ ?_)
    have hapart : ∀ p ∈ pairOperator.owned, pairPipe.data.stop ≤ p.offset := by decide
    rintro i hi ⟨p, hp, hip⟩
    exact Nat.lt_irrefl _ (Nat.lt_of_lt_of_le hi.2 (Nat.le_trans (hapart p hp) hip.1))
  have hstep := Operator.lacks_step_iff 4096 .direct pairCalls none (by decide +kernel) hmake rfl
    (by decide +kernel) hlives (by decide +kernel) rfl ⟨⟨12, 2⟩, ⟨16, 2⟩, ⟨20, 2⟩⟩ List.mem_cons_self
  have hfirst : ¬ pairOperator.Voids pairFrame.store 0 := by
    change ¬ (pairFrame.store.get pairPipe.data 0).isValid = false
    decide +kernel
  have hsecond : pairOperator.Voids pairFrame.store 1 := by
    change (pairFrame.store.get pairPipe.data 1).isValid = false
    decide +kernel
  exact ⟨hmake, fun h => hfirst ((hstep 0 (by decide)).1.1 h), (hstep 1 (by decide)).1.2 hsecond⟩

end Sample

end Readout
