import Readout.Proofs.Operator.Result
import Readout.Proofs.Value.Validity

/-!
# Where results are invalid

An element of an output is a function of the elements that it is computed from. Each kind of
operator has its own rule by which this function has no valid value; on all other elements, and
on factors and counters that are valid themselves, its value is valid.
-/
namespace Readout

open Value

namespace Equation

/-- What an equation divides by. -/
def divisor? (e : Equation) (a b : Value) : Option Value :=
  match e with
  | sum | difference | product => none
  | sumOverDifference | aOverDifference => some (a - b)
  | differenceOverSum => some (a + b)
  | differenceOverA => some a
  | quotient => some b

theorem apply_eq_none_iff (e : Equation) (a b : Value) :
    e.apply a b = none ↔ ∃ d ∈ e.divisor? a b, d.isZero = true := by
  have hdivide : ∀ n d : Value, divide n d = none ↔ d.isZero = true := fun n d => by
    change (if d.isZero then none else some (n / d)) = none ↔ _
    split <;> simp_all
  cases e <;> simp [apply, divisor?, hdivide]

theorem isValid_apply {e : Equation} {a b v : Value} (ha : a.isValid = true)
    (hb : b.isValid = true) (hv : e.apply a b = some v) : v.isValid = true := by
  have hdivide : ∀ {n d : Value}, n.isValid = true → d.isValid = true → divide n d = some v →
      v.isValid = true := by
    intro n d hn hd h
    rw [divide] at h
    split at h
    · cases h
    · cases h
      exact isValid_div hn hd
  cases e with
  | sum => cases hv; exact isValid_add ha hb
  | difference => cases hv; exact isValid_sub ha hb
  | product => cases hv; exact isValid_mul ha hb
  | sumOverDifference => exact hdivide (isValid_add ha hb) (isValid_sub ha hb) hv
  | differenceOverSum => exact hdivide (isValid_sub ha hb) (isValid_add ha hb) hv
  | aOverDifference => exact hdivide ha (isValid_sub ha hb) hv
  | differenceOverA => exact hdivide (isValid_sub ha hb) ha hv
  | quotient => exact hdivide ha hb hv

end Equation

namespace Reduction

/-- All selected elements are valid. -/
def AllValid (s : Selected Value) : Prop := ∀ e ∈ s, e.2.isValid = true

/-- A fold whose steps keep validity ends in a valid value. -/
theorem isValid_foldl {s : Selected Value} (hs : AllValid s) {φ : Value → ℕ × Value → Value}
    (hφ : ∀ t e, t.isValid = true → e.2.isValid = true → (φ t e).isValid = true) {t : Value}
    (ht : t.isValid = true) : (s.foldl φ t).isValid = true := by
  induction s generalizing t with
  | nil => exact ht
  | cons e s ih =>
    obtain ⟨he, hs⟩ := List.forall_mem_cons.1 hs
    exact ih hs (hφ t e ht he)

section Sums

variable {s : Selected Value} (hs : AllValid s)

include hs

theorem isValid_total : (total s).isValid = true :=
  isValid_foldl hs (fun _ _ ht he => isValid_add ht he) (by decide)

theorem isValid_moment : (moment s).isValid = true :=
  isValid_foldl hs (fun _ _ ht he => isValid_add ht (isValid_mul (isValid_ofNat _) he)) (by decide)

theorem isValid_squares {mean : Value} (hm : mean.isValid = true) :
    (squares s mean).isValid = true :=
  isValid_foldl hs (fun _ _ ht he =>
    isValid_add ht (isValid_mul (isValid_sub he hm) (isValid_sub he hm))) (by decide)

theorem isValid_weightedSquares {mean : Value} (hm : mean.isValid = true) :
    (weightedSquares s mean).isValid = true :=
  isValid_foldl hs (fun _ _ ht he =>
    have hdistance := isValid_sub (isValid_ofNat _) hm
    isValid_add ht (isValid_mul (isValid_mul he hdistance) hdistance)) (by decide)

theorem isValid_meanOf : (meanOf s).isValid = true :=
  isValid_div (isValid_total hs) (isValid_ofNat _)

end Sums

section Best

variable {α : Type}

/-- The better one of the best element so far and a new one. -/
def better (φ : α → α → Bool) (best : Option (ℕ × α)) (e : ℕ × α) : Option (ℕ × α) :=
  match best with
  | none => some e
  | some b => if φ e.2 b.2 then some e else some b

theorem lowest?_eq [Scalar α] (s : Selected α) :
    lowest? s = s.foldl (better fun v b => Scalar.below v b) none := by
  rw [lowest?]
  congr

theorem highest?_eq [Scalar α] (s : Selected α) :
    highest? s = s.foldl (better fun v b => Scalar.below b v) none := by
  rw [highest?]
  congr

theorem exists_foldl_better (φ : α → α → Bool) (s : Selected α) (b : ℕ × α) :
    ∃ e, s.foldl (better φ) (some b) = some e ∧ (e = b ∨ e ∈ s) := by
  induction s generalizing b with
  | nil => exact ⟨b, rfl, .inl rfl⟩
  | cons e s ih =>
    by_cases h : φ e.2 b.2 = true
    · obtain ⟨x, hx, hmem⟩ := ih e
      refine ⟨x, ?_, .inr (List.mem_cons.2 hmem)⟩
      rw [List.foldl_cons, better, if_pos h, hx]
    · obtain ⟨x, hx, hmem⟩ := ih b
      refine ⟨x, ?_, hmem.imp_right (List.mem_cons_of_mem e)⟩
      rw [List.foldl_cons, better, if_neg h, hx]

/-- Of some elements there is a best one. -/
theorem exists_best (φ : α → α → Bool) {s : Selected α} (hs : s ≠ []) :
    ∃ e ∈ s, s.foldl (better φ) none = some e := by
  cases s with
  | nil => exact absurd rfl hs
  | cons b s =>
    obtain ⟨e, he, hmem⟩ := exists_foldl_better φ s b
    exact ⟨e, List.mem_cons.2 hmem, he⟩

end Best

theorem meanPosition?_eq_none_iff (s : Selected Value) :
    meanPosition? s = none ↔ (total s).isZero = true := by
  change (if (total s).isZero then none else some (moment s / total s)) = none ↔ _
  split <;> simp_all

theorem apply_eq_none_iff (r : Reduction) (s : Selected Value) : r.apply s = none ↔
    r ≠ multiplicity ∧ (s = [] ∨ (r = meanX ∨ r = sigmaX) ∧ (total s).isZero = true) := by
  by_cases hs : s = []
  · subst hs
    cases r <;> simp [apply]
  · obtain ⟨l, -, hl⟩ := exists_best (fun v b => Scalar.below v b) hs
    obtain ⟨h, -, hh⟩ := exists_best (fun v b => Scalar.below b v) hs
    cases r <;>
      simp [apply, hs, lowest?_eq, highest?_eq, hl, hh, meanPosition?_eq_none_iff]

theorem isValid_meanPosition {s : Selected Value} {m : Value} (hs : AllValid s)
    (hm : meanPosition? s = some m) : m.isValid = true := by
  rw [meanPosition?] at hm
  split at hm
  · cases hm
  · cases hm
    exact isValid_div (isValid_moment hs) (isValid_total hs)

theorem isValid_apply {r : Reduction} {s : Selected Value} {v : Value} (hs : AllValid s)
    (hv : r.apply s = some v) : v.isValid = true := by
  by_cases hr : r = multiplicity
  · subst hr
    cases hv
    exact isValid_ofNat _
  · have hne : s ≠ [] := fun h => by
      have hnone := (r.apply_eq_none_iff s).2 ⟨hr, .inl h⟩
      rw [hnone] at hv
      cases hv
    obtain ⟨l, hl, hlow⟩ := exists_best (fun v b => Scalar.below v b) hne
    obtain ⟨h, hh, hhigh⟩ := exists_best (fun v b => Scalar.below b v) hne
    cases r <;> simp [apply, hne, lowest?_eq, highest?_eq, hlow, hhigh] at hv
    case multiplicity => exact absurd rfl hr
    case sum => exact hv ▸ isValid_total hs
    case mean => exact hv ▸ isValid_meanOf hs
    case sigma =>
      have hspread := isValid_div (isValid_squares hs (isValid_meanOf hs)) (isValid_ofNat s.length)
      exact hv ▸ isValid_sqrt hspread
    case min => exact hv ▸ hs l hl
    case max => exact hv ▸ hs h hh
    case minX => exact hv ▸ isValid_ofNat l.1
    case maxX => exact hv ▸ isValid_ofNat h.1
    case meanX => exact isValid_meanPosition hs hv
    case sigmaX =>
      obtain ⟨m, hm, rfl⟩ := hv
      have hspread := isValid_weightedSquares hs (isValid_meanPosition hs hm)
      exact isValid_sqrt (isValid_div hspread (isValid_total hs))

end Reduction

namespace Element

variable {a b v lower upper factor count : Value}

theorem calibrated_eq_false_iff (hl : lower.isValid = true) (hu : upper.isValid = true)
    (hf : factor.isValid = true) :
    (calibrated v lower upper factor).isValid = false ↔ v.isValid = false := by
  rw [calibrated]
  split
  · next hv => rw [hv, rescale, isValid_add (isValid_mul (isValid_sub hv hl) hf) hu]
  · rfl

theorem difference_eq_false_iff (a b : Value) :
    (difference a b).isValid = false ↔ a.isValid = false ∨ b.isValid = false := by
  rw [difference, ← Bool.and_eq_false_iff]
  split
  · next h =>
    obtain ⟨ha, hb⟩ := Bool.and_eq_true_iff.1 h
    rw [isValid_sub ha hb, h]
  · next h => exact iff_of_true rfl (Bool.eq_false_iff.2 h)

theorem equation_eq_false_iff (e : Equation) (a b : Value) : (equation e a b).isValid = false ↔
    a.isValid = false ∨ b.isValid = false ∨ ∃ d ∈ e.divisor? a b, d.isZero = true := by
  rw [equation]
  split
  · next h =>
    obtain ⟨ha, hb⟩ := Bool.and_eq_true_iff.1 h
    rw [← e.apply_eq_none_iff, ha, hb]
    cases hv : e.apply a b with
    | none => simp; rfl
    | some v => simp [Equation.isValid_apply ha hb hv]
  · next h =>
    have hor : a.isValid = false ∨ b.isValid = false := by
      rwa [Bool.and_eq_true, not_and_or, Bool.not_eq_true, Bool.not_eq_true] at h
    exact iff_of_true rfl (or_assoc.1 (.inl hor))

theorem inRange_eq_false_iff (w : Window Value) (inverted : Bool) (v : Value) :
    (inRange w inverted v).isValid = false ↔ v.isValid = false ∨ w.contains v = inverted := by
  rw [inRange]
  split
  · next h => rw [or_iff_left (bne_iff_ne.1 (Bool.and_eq_true_iff.1 h).2)]
  · next h =>
    refine iff_of_true rfl ?_
    rwa [Bool.and_eq_true, not_and_or, Bool.not_eq_true, bne_iff_ne, ne_eq, not_not] at h

theorem conditioned_eq_false_iff (inverted : Bool) (c v : Value) :
    (conditioned inverted c v).isValid = false ↔ v.isValid = false ∨ c.isValid = inverted := by
  rw [conditioned]
  split
  · next h => rw [or_iff_left (bne_iff_ne.1 h)]
  · next h => exact iff_of_true rfl (.inr (by simpa using h))

theorem isValid_overflows (hc : count.isValid = true) (last v : Value) :
    (overflows count last v).isValid = true := by
  rw [overflows]
  split
  · exact isValid_add hc (by decide)
  · exact hc

theorem unwrapped_eq_false_iff (hu : upper.isValid = true) (hc : count.isValid = true) :
    (unwrapped upper count v).isValid = false ↔ v.isValid = false := by
  rw [unwrapped]
  split
  · next hv => rw [hv, isValid_add hv (isValid_mul hc hu)]
  · next hv => exact iff_of_true rfl (Bool.eq_false_iff.2 hv)

end Element

namespace Kind

theorem allValid_selected (w : Window Value) (data lower upper : List Value) :
    Reduction.AllValid (selected w data lower upper) := by
  intro e he
  obtain ⟨⟨⟨v, l⟩, i⟩, hv, rfl⟩ := List.mem_map.1 he
  have hadmits := (List.mem_filter.1 hv).2
  exact (Bool.and_eq_true_iff.1 hadmits).1

theorem aggregated_eq_false_iff (r : Reduction) (w : Window Value) (data lower upper : List Value) :
    (aggregated r w data lower upper).isValid = false ↔
      r.apply (selected w data lower upper) = none := by
  rw [aggregated]
  cases hv : r.apply (selected w data lower upper) with
  | none => exact iff_of_true rfl rfl
  | some v => simp [Reduction.isValid_apply (allValid_selected w data lower upper) hv]

theorem selected_eq_range (w : Window Value) (s : Store) {p : Pipe} (hp : p.Even) :
    selected w (s.values p.data) (s.values p.lower) (s.values p.upper) =
      ((List.range p.length).filter fun j =>
        (w.orLimits (s.get p.lower j) (s.get p.upper j)).admits (s.get p.data j)).map
          fun j => (j, s.get p.data j) := by
  have hdata : s.values p.data = (List.range p.length).map (s.get p.data) := rfl
  have hindex : ∀ g : ℕ → Value × Value × Value, ((List.range p.length).map g).zipIdx =
      (List.range p.length).map fun j => (g j, j) := fun g => by
    apply List.ext_getElem <;> simp
  rw [hdata, s.values_eq_range hp.1, s.values_eq_range hp.2, selected, List.zip_map',
    List.zip_map', hindex, List.filter_map, List.map_map]
  rfl

theorem selected_eq_nil_iff (w : Window Value) (s : Store) {p : Pipe} (hp : p.Even) :
    selected w (s.values p.data) (s.values p.lower) (s.values p.upper) = [] ↔
      ∀ j < p.length, (w.orLimits (s.get p.lower j) (s.get p.upper j)).admits (s.get p.data j) =
        false := by
  simp [selected_eq_range w s hp]

end Kind

namespace Store

/-- Element `i` of a span is invalid. -/
def Lacks (s : Store) (p : Span) (i : Nat) : Prop := (s.get p i).isValid = false

/-- The limits of a pipe are valid. -/
def Limited (s : Store) (p : Pipe) : Prop :=
  ∀ q ∈ p.limits, ∀ i < q.length, (s.get q i).isValid = true

instance (s : Store) (p : Pipe) : Decidable (s.Limited p) :=
  inferInstanceAs (Decidable (∀ q ∈ p.limits, ∀ i < q.length, (s.get q i).isValid = true))

end Store

/-- The factors and counters that a kind computes with. -/
def Kind.figures : Kind → List Span
  | calibration factors => [factors]
  | scalerOverflow _ overflows => [overflows]
  | _ => []

namespace Operator

/-- What an operator computes with holds valid values. -/
def Figured (op : Operator) (s : Store) : Prop :=
  ∀ p ∈ op.kind.figures, ∀ i < p.length, (s.get p i).isValid = true

/-- The rule by which a kind of operator makes element `i` of its output invalid. -/
def Voids (op : Operator) (s : Store) (i : Nat) : Prop :=
  match op.kind, op.inputs with
  | .calibration _, [p] | .scalerOverflow .., [p] => s.Lacks p.data i
  | .keepPrevious previous _, _ => s.Lacks previous i
  | .difference, [a, b] => s.Lacks a.data i ∨ s.Lacks b.data i
  | .arrayMap mappings, ps => ∀ m ∈ mappings[i]?, (∀ p ∈ ps[m.input]?, p.length ≤ m.element) ∨
      ∃ p ∈ ps[m.input]?, s.Lacks p.data m.element
  | .equation e, [a, b] => s.Lacks a.data i ∨ s.Lacks b.data i ∨
      ∃ d ∈ e.divisor? (s.get a.data i) (s.get b.data i), d.isZero = true
  | .aggregate r w, [p] => r ≠ .multiplicity ∧
      ((∀ j < p.length, (w.orLimits (s.get p.lower j) (s.get p.upper j)).admits (s.get p.data j) =
          false) ∨
        (r = .meanX ∨ r = .sigmaX) ∧ (Reduction.total (Kind.selected w (s.values p.data)
          (s.values p.lower) (s.values p.upper))).isZero = true)
  | .rangeFilter w inverted, [p] => s.Lacks p.data i ∨ w.contains (s.get p.data i) = inverted
  | .rectangleFilter x y junction, [a, b] =>
    Kind.rectangle junction (x.admits (s.get a.data 0)) (y.admits (s.get b.data 0)) = false
  | .conditionFilter inverted, [d, c] => s.Lacks d.data i ∨
      (s.get c.data (if c.length = d.length then i else 0)).isValid = inverted
  | _, _ => False

variable {op : Operator} {s : Store} {i : Nat}

theorem isValid_result_arrayMap {ps : List Pipe} {mappings : List Mapping} (hi : i < mappings.length) :
    (((mappings[i]?).bind (mapped? (ps.map fun p => s.values p.data))).getD
      Value.invalid).isValid = false ↔
      ∀ m ∈ mappings[i]?, (∀ p ∈ ps[m.input]?, p.length ≤ m.element) ∨
        ∃ p ∈ ps[m.input]?, s.Lacks p.data m.element := by
  rw [List.getElem?_eq_getElem hi, Option.bind_some]
  simp only [Option.mem_some_iff, forall_eq', mapped?, List.getElem?_map]
  cases hp : ps[mappings[i].input]? with
  | none => simp; rfl
  | some p =>
    simp only [Option.map_some, Option.bind_some, Option.mem_some_iff, forall_eq', exists_eq_left']
    rcases Nat.lt_or_ge mappings[i].element p.length with hm | hm
    · have hget : (s.values p.data)[mappings[i].element]? =
          some (s.get p.data mappings[i].element) := by
        rw [s.values_eq_range (n := p.length) rfl, List.getElem?_map, List.getElem?_range hm,
          Option.map_some]
      rw [hget, or_iff_right (Nat.not_le.2 hm)]
      rfl
    · have hget : (s.values p.data)[mappings[i].element]? = none :=
        List.getElem?_eq_none (by rwa [s.length_values])
      rw [hget]
      exact iff_of_true rfl (.inl hm)

/-- The rules are those of the results. -/
theorem result_eq_false_iff {slots : Nat} (h : op.InRange slots)
    (hx : op.kind.isExpression = false) (hl : ∀ p ∈ op.inputs ++ op.outputs, s.Limited p)
    (hf : op.Figured s) {o : Pipe} (ho : o ∈ op.outputs) (hi : i < o.length) :
    (op.result s i).isValid = false ↔ op.Voids s i := by
  have hs := h.shaped
  have heven := h.even
  have hlower : ∀ p ∈ op.inputs ++ op.outputs, ∀ k < p.length, (s.get p.lower k).isValid = true :=
    fun p hp k hk => hl p hp p.lower (by simp [Pipe.limits]) k ((heven p hp).1 ▸ hk)
  have hupper : ∀ p ∈ op.inputs ++ op.outputs, ∀ k < p.length, (s.get p.upper k).isValid = true :=
    fun p hp k hk => hl p hp p.upper (by simp [Pipe.limits]) k ((heven p hp).2 ▸ hk)
  obtain ⟨inputs, outputs, gate, kind⟩ := op
  cases kind with
  | calibration factors =>
    obtain ⟨p, q, rfl, rfl, hfactors, hlen⟩ := hs
    obtain rfl : o = q := List.mem_singleton.1 ho
    have hfactor := hf factors List.mem_cons_self i (by omega)
    exact Element.calibrated_eq_false_iff (hlower p (by simp) i (by omega))
      (hlower o (by simp) i hi) hfactor
  | keepPrevious previous keepValid => exact Iff.rfl
  | difference =>
    obtain ⟨a, b, q, rfl, rfl, -⟩ := hs
    exact Element.difference_eq_false_iff _ _
  | arrayMap mappings =>
    obtain ⟨q, rfl, hlen⟩ := hs
    obtain rfl : o = q := List.mem_singleton.1 ho
    exact isValid_result_arrayMap (hlen ▸ hi)
  | equation e =>
    obtain ⟨a, b, q, rfl, rfl, -⟩ := hs
    exact Element.equation_eq_false_iff e _ _
  | aggregate r w =>
    obtain ⟨p, q, rfl, rfl, -⟩ := hs
    have hnone := r.apply_eq_none_iff (Kind.selected w (s.values p.data) (s.values p.lower)
      (s.values p.upper))
    rw [Kind.selected_eq_nil_iff w s (heven p (by simp))] at hnone
    exact (Kind.aggregated_eq_false_iff r w _ _ _).trans hnone
  | rangeFilter w inverted =>
    obtain ⟨p, q, rfl, rfl, -⟩ := hs
    exact Element.inRange_eq_false_iff w inverted _
  | rectangleFilter x y junction =>
    obtain ⟨a, b, q, rfl, rfl, -⟩ := hs
    have hflag : ∀ c : Bool, (if c then Value.one else Value.invalid).isValid = false ↔ c = false := by
      decide
    exact hflag _
  | conditionFilter inverted =>
    obtain ⟨d, c, q, rfl, rfl, -⟩ := hs
    exact Element.conditioned_eq_false_iff inverted _ _
  | scalerOverflow last overflows =>
    obtain ⟨p, q, rfl, rfl, -, hcounts, hlen⟩ := hs
    obtain rfl : o = q := List.mem_singleton.1 ho
    have hcount := hf overflows List.mem_cons_self i (by omega)
    exact Element.unwrapped_eq_false_iff (hupper p (by simp) i (by omega))
      (Element.isValid_overflows hcount _ _)
  | expression e => cases hx
  | histograms hs' => obtain ⟨_, -, rfl, -⟩ := hs; cases ho
  | planeHistogram p => obtain ⟨_, _, -, rfl, -⟩ := hs; cases ho
  | rateMonitor m => obtain ⟨_, -, rfl, -⟩ := hs; cases ho
  | exportSink s => obtain ⟨-, rfl, -⟩ := hs; cases ho
  | intervalCondition intervals bit => obtain ⟨_, -, rfl, -⟩ := hs; cases ho
  | rectangleCondition x y bit => obtain ⟨_, _, -, rfl, -⟩ := hs; cases ho
  | polygonCondition polygon bit => obtain ⟨_, _, -, rfl, -⟩ := hs; cases ho

end Operator

end Readout
