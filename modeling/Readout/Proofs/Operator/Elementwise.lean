import Readout.Proofs.Operator.Figures
import Readout.Proofs.Value.Quantity

/-!
# Element-wise operators

Calibrations, differences, maps, filters and operators that look back make each element of their
output of single elements. `act` says what a step of them does to what an arena holds, over any
quantities; over doubles it is the step of the operator (`read_step`), and the limits and factors
that makers write are the ones that `Declares` describes.
-/
namespace Readout

/-- What the slots of an arena hold. -/
abbrev Memory (δ : Type) := Nat → δ

namespace Memory

variable {δ : Type}

def get (m : Memory δ) (p : Span) (i : Nat) : δ := m (p.offset + i)

/-- The limits of an element. -/
def limits (m : Memory δ) (p : Pipe) (i : Nat) : δ × δ := (m.get p.lower i, m.get p.upper i)

end Memory

/-- What a mapping takes from some pipes, if the element is there. -/
def Mapping.taken? {β : Type} (k : Mapping) (ps : List Pipe) (g : Pipe → Nat → β) : Option β :=
  (ps[k.input]?).bind fun p => if k.element < p.length then some (g p k.element) else none

def Kind.isElementwise : Kind → Bool
  | calibration _ | keepPrevious .. | difference | arrayMap _ | rangeFilter .. |
    conditionFilter _ => true
  | _ => false

namespace Operator

section Act

variable {δ : Type} [Quantity δ]

/-- What an open step makes of element `i` of the output. -/
def outcome (op : Operator) (m : Memory δ) (i : Nat) : δ :=
  match op.kind, op.inputs with
  | .calibration factors, [p] => Quantity.calibrated (m.get p.data i) (m.get p.lower i)
      (m.get op.firstOutput.lower i) (m.get factors i)
  | .keepPrevious previous _, _ => m.get previous i
  | .difference, [a, b] => Quantity.difference (m.get a.data i) (m.get b.data i)
  | .arrayMap mappings, ps =>
    ((mappings[i]?).bind fun k => k.taken? ps fun p => m.get p.data).getD Quantity.invalid
  | .rangeFilter w inverted, [p] => Quantity.inRange (Quantity.window w) inverted (m.get p.data i)
  | .conditionFilter inverted, [d, c] => Quantity.conditioned inverted
      (m.get c.data (if c.length = d.length then i else 0)) (m.get d.data i)
  | _, _ => Quantity.invalid

/-- What an open step leaves beside the output. -/
def retain (op : Operator) (m : Memory δ) : Memory δ :=
  match op.kind with
  | .keepPrevious previous keepValid => fun k =>
    if k ∈ previous then
      Quantity.remembered keepValid (m k) (m.get op.firstInput.data (k - previous.offset))
    else m k
  | _ => m

/-- What a step makes of what an arena holds. -/
def act (op : Operator) (isOpen : Bool) (m : Memory δ) : Memory δ := fun k =>
  if k ∈ op.firstOutput.data then
    if isOpen then op.outcome m (k - op.firstOutput.data.offset) else Quantity.invalid
  else if isOpen then op.retain m k else m k

/-- What the begin of a run makes of it. -/
def renew (op : Operator) (m : Memory δ) : Memory δ :=
  match op.kind with
  | .keepPrevious previous _ => fun k => if k ∈ previous then Quantity.invalid else m k
  | _ => m

/-- The limits of the output are the ones that the maker declares, and so are factors. -/
def Declares (op : Operator) (m : Memory δ) : Prop :=
  ∀ i < op.firstOutput.length,
    match op.kind, op.inputs with
    | .calibration factors, [p] => m.get factors i = calibrationFactor (m.limits op.firstOutput i).1
        (m.limits op.firstOutput i).2 (m.limits p i).1 (m.limits p i).2
    | .difference, [a, b] =>
      m.limits op.firstOutput i = differenceLimits (m.limits a i) (m.limits b i)
    | .arrayMap mappings, ps => m.limits op.firstOutput i =
        ((mappings[i]?).bind fun k => k.taken? ps m.limits).getD (Scalar.zero, Scalar.zero)
    | .keepPrevious .., [p] | .rangeFilter .., [p] => m.limits op.firstOutput i = m.limits p i
    | .conditionFilter _, [d, _] => m.limits op.firstOutput i = m.limits d i
    | _, _ => True

section Retained

variable {op : Operator} {m : Memory δ}

theorem retain_of_not_state {k : Nat} (hm : ∀ p ∈ op.kind.state, k ∉ p) : op.retain m k = m k := by
  obtain ⟨inputs, outputs, gate, kind⟩ := op
  cases kind with
  | keepPrevious previous keepValid => exact if_neg (hm previous List.mem_cons_self)
  | _ => rfl

theorem retain_previous {p o : Pipe} {gate : Option Nat} {previous : Span} {keepValid : Bool}
    {i : Nat} (hi : i < previous.length) :
    retain ⟨[p], [o], gate, .keepPrevious previous keepValid⟩ m (previous.offset + i) =
      Quantity.remembered keepValid (m.get previous i) (m.get p.data i) := by
  have hmem : previous.offset + i ∈ previous :=
    ⟨Nat.le_add_right _ _, Nat.add_lt_add_left hi _⟩
  refine (if_pos hmem).trans ?_
  rw [Nat.add_sub_cancel_left]
  rfl

end Retained

end Act

section Doubles

variable {op : Operator} {f : Frame} {s : Store}

theorem mapped?_values {ps : List Pipe} {span : Pipe → Span}
    (hlen : ∀ p ∈ ps, (span p).length = p.length) (k : Mapping) :
    mapped? (ps.map fun p => s.values (span p)) k = k.taken? ps fun p => s.get (span p) := by
  rw [mapped?, Mapping.taken?, List.getElem?_map]
  cases hp : ps[k.input]? with
  | none => rfl
  | some p =>
    have hlength := hlen p (List.mem_of_getElem? hp)
    rw [Option.map_some, Option.bind_some, Option.bind_some, s.values_eq_range hlength,
      List.getElem?_map]
    split
    · next h => rw [List.getElem?_range h]; rfl
    · next h => rw [List.getElem?_eq_none (by simpa using h)]; rfl

theorem outcome_read (hk : op.kind.isElementwise = true) (hs : op.Shaped) (i : Nat) :
    op.outcome s.read i = op.result s i := by
  obtain ⟨inputs, outputs, gate, kind⟩ := op
  cases kind with
  | calibration factors =>
    obtain ⟨p, o, rfl, rfl, -⟩ := hs
    rfl
  | keepPrevious previous keepValid => rfl
  | difference =>
    obtain ⟨a, b, o, rfl, rfl, -⟩ := hs
    rfl
  | arrayMap mappings =>
    have hmapped : Operator.mapped? (inputs.map fun p => s.values p.data) =
        fun k => k.taken? inputs fun p => s.get p.data :=
      funext fun k => mapped?_values (fun _ _ => rfl) k
    exact congrArg (fun g => ((mappings[i]?).bind g).getD Value.invalid) hmapped.symm
  | rangeFilter w inverted =>
    obtain ⟨p, o, rfl, rfl, -⟩ := hs
    rfl
  | conditionFilter inverted =>
    obtain ⟨d, c, o, rfl, rfl, -⟩ := hs
    rfl
  | _ => cases hk

theorem outputs_elementwise (hk : op.kind.isElementwise = true) (hs : op.Shaped) :
    op.outputs = [op.firstOutput] := by
  obtain ⟨inputs, outputs, gate, kind⟩ := op
  cases kind with
  | calibration | keepPrevious | rangeFilter =>
    obtain ⟨_, o, -, rfl, -⟩ := hs
    rfl
  | difference =>
    obtain ⟨_, _, o, -, rfl, -⟩ := hs
    rfl
  | arrayMap =>
    obtain ⟨o, rfl, -⟩ := hs
    rfl
  | conditionFilter =>
    obtain ⟨_, _, o, -, rfl, -⟩ := hs
    rfl
  | _ => cases hk

theorem not_isExpression (hk : op.kind.isElementwise = true) : op.kind.isExpression = false := by
  obtain ⟨inputs, outputs, gate, kind⟩ := op
  cases kind <;> first | rfl | cases hk

/-- What a step leaves beside the output, where nothing is remembered. -/
theorem read_step_of_not_written (hk : op.kind.isElementwise = true) (hs : op.Shaped) {k : Nat}
    (ho : k ∉ op.firstOutput.data) (hm : ∀ p ∈ op.kind.state, k ∉ p) :
    (op.step f).2.store.read k = f.store.read k := by
  have hbins : op.kind.bins = [] := by
    obtain ⟨inputs, outputs, gate, kind⟩ := op
    cases kind <;> first | rfl | cases hk
  have hbeyond : Region.Beyond ⟨(· = k), fun _ => False, fun _ => False⟩ op := by
    refine ⟨?_, fun _ _ => id, fun _ _ => id⟩
    rintro p hp i hi rfl
    rw [hbins, List.append_nil, written, outputs_elementwise hk hs, List.map_singleton,
      List.singleton_append, List.mem_cons] at hp
    rcases hp with rfl | hp
    · exact ho hi
    · exact hm p hp hi
  exact ((step_frame hbeyond f).store.read_eq k rfl).symm

theorem get_previous {p o : Pipe} {gate : Option Nat} {previous : Span} {keepValid : Bool} {i : Nat}
    (h : InRange f.store.slots ⟨[p], [o], gate, .keepPrevious previous keepValid⟩)
    (hi : i < previous.length) :
    (compute ⟨[p], [o], gate, .keepPrevious previous keepValid⟩ f).2.store.get previous i =
      Element.remembered keepValid (f.store.get previous i) (f.store.get p.data i) := by
  obtain ⟨_, _, hp, ho, hl, -⟩ := h.shaped
  cases hp
  cases ho
  have hkept : f.store.values previous = (List.range p.length).map (f.store.get previous) :=
    f.store.values_eq_range hl
  have hdata : f.values p = (List.range p.length).map (f.store.get p.data) := rfl
  have hfit : previous.stop ≤ f.store.slots := h.fits _ (List.mem_append_right _
    (InRange.memory_mem_owned (List.mem_singleton_self previous)))
  simp only [compute, inputValues, List.map_cons, List.map_nil, List.headD_cons, hkept, hdata,
    zipWith_range]
  rw [Store.get_assign _ _ hi (by simpa [Frame.writeFirst, Frame.write, Span.stop] using hfit),
    List.getElem?_map, List.getElem?_range (hl ▸ hi)]
  rfl

/-- Over doubles, `act` is the step of the operator. -/
theorem read_step (hk : op.kind.isElementwise = true) (h : InRange f.store.slots op) :
    (op.step f).2.store.read = op.act (op.isOpen f.bits) f.store.read := by
  have hout := outputs_elementwise hk h.shaped
  have hmem : op.firstOutput ∈ op.outputs := hout ▸ List.mem_singleton_self _
  funext k
  rw [act]
  by_cases ho : k ∈ op.firstOutput.data
  · obtain ⟨i, rfl⟩ := Nat.exists_eq_add_of_le ho.1
    have hi : i < op.firstOutput.data.length := Nat.add_lt_add_iff_left.1 ho.2
    rw [if_pos ho, Nat.add_sub_cancel_left]
    cases hopen : op.isOpen f.bits
    · rw [step, if_neg (by simp [hopen]), hout]
      exact f.store.get_fill _ hi (h.output_stop_le hmem)
    · rw [step, if_pos hopen, if_pos rfl, outcome_read hk h.shaped]
      exact h.get_compute (not_isExpression hk) hmem hi
  · rw [if_neg ho]
    by_cases hm : ∀ p ∈ op.kind.state, k ∉ p
    · rw [read_step_of_not_written hk h.shaped ho hm, retain_of_not_state hm, ite_self]
    · obtain ⟨inputs, outputs, gate, kind⟩ := op
      cases kind with
      | keepPrevious previous keepValid =>
        obtain ⟨p, o, rfl, rfl, -⟩ := h.shaped
        have hprevious : k ∈ previous := by simpa [Kind.state] using hm
        obtain ⟨i, rfl⟩ := Nat.exists_eq_add_of_le hprevious.1
        have hi : i < previous.length := Nat.add_lt_add_iff_left.1 hprevious.2
        cases hopen : isOpen ⟨[p], [o], gate, .keepPrevious previous keepValid⟩ f.bits
        · rw [step, if_neg (by simp [hopen])]
          have hsame := f.store.agree_fill (P := (· = previous.offset + i)) (p := o.data)
            Value.invalid fun k hk hkp => ho (hkp ▸ hk)
          exact (hsame.read_eq _ rfl).symm
        · rw [step, if_pos hopen, if_pos rfl, retain_previous hi]
          exact get_previous h hi
      | _ => simp [Kind.state] at hm <;> cases hk

/-- Over doubles, `renew` is the begin of a run. -/
theorem read_beginRun (hk : op.kind.isElementwise = true) (h : InRange f.store.slots op) :
    (op.beginRun f).2.store.read = op.renew f.store.read := by
  obtain ⟨inputs, outputs, gate, kind⟩ := op
  cases kind with
  | keepPrevious previous keepValid =>
    funext k
    change (f.store.invalidate previous).read k = if k ∈ previous then _ else _
    by_cases hm : k ∈ previous
    · obtain ⟨i, rfl⟩ := Nat.exists_eq_add_of_le hm.1
      rw [if_pos hm]
      refine f.store.get_fill Value.invalid (Nat.add_lt_add_iff_left.1 hm.2) (h.fits _ ?_)
      exact List.mem_append_right _ (InRange.memory_mem_owned (List.mem_singleton_self previous))
    · rw [if_neg hm]
      have hsame := f.store.agree_fill (P := (· = k)) (p := previous) Value.invalid
        fun i hi hik => hm (hik ▸ hi)
      exact (hsame.read_eq k rfl).symm
  | calibration | difference | arrayMap | rangeFilter | conditionFilter => rfl
  | _ => cases hk

end Doubles

end Operator

namespace Histogram

/-- The entries below and above the axis. -/
def beside (h : Histogram) : Value × Value := (h.underflow, h.overflow)

/-- A default-binned histogram counts what lies on its axis neither below nor above. -/
theorem beside_fill {h : Histogram} {lower upper x : Value}
    (ha : h.axis = Axis.ofLimits lower upper) (hx : Quantity.spans lower upper x = true)
    (f : Filler) (s : Store) : (h.fill x f s).1.beside = h.beside := by
  have hspans : (!Value.below x h.axis.min && !Value.atMost h.axis.max x) = true := by
    rw [ha]
    exact hx
  rw [Bool.and_eq_true, Bool.not_eq_true', Bool.not_eq_true'] at hspans
  rw [fill, target]
  split
  · rfl
  · rw [hspans.1, hspans.2]
    rfl

theorem beside_fillEach {hs : List Histogram} {vs : List Value} (f : Filler) (s : Store)
    (h : ∀ (i : Nat) (k : Histogram) (x : Value), hs[i]? = some k → vs[i]? = some x →
      x.isValid = true → ∃ lower upper, k.axis = Axis.ofLimits lower upper ∧
        Quantity.spans lower upper x = true) :
    (fillEach hs vs f s).1.map beside = hs.map beside := by
  induction hs generalizing vs f s with
  | nil => rfl
  | cons k hs ih =>
    cases vs with
    | nil => rfl
    | cons x vs =>
      have hrest : ∀ (f : Filler) (s : Store),
          (fillEach hs vs f s).1.map beside = hs.map beside := fun f s => ih f s fun i => h (i + 1)
      rw [fillEach]
      by_cases hx : x.isValid = true
      · obtain ⟨lower, upper, ha, hspans⟩ := h 0 k x rfl rfl hx
        rw [if_pos hx, List.map_cons, List.map_cons, hrest, beside_fill ha hspans]
      · rw [if_neg hx, List.map_cons, List.map_cons, hrest]

end Histogram

end Readout
