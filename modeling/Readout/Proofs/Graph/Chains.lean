import Readout.Proofs.Graph.Declared

/-!
# Chains of element-wise operators

Over exact values a valid element of an output of an element-wise operator lies in its declared
limits, as long as the valid elements of the inputs lie in theirs whenever an open step reads them
(`limits_kept`). The outputs of operators that stepped may be such inputs, so chains of any length
keep to limits, and a default-binned histogram behind them counts nothing beside its axis.
-/
namespace Readout

open ExactValue

namespace Memory

variable {δ : Type} {m n : Memory δ} {ps qs : List Span}

/-- Both hold the same in some spans. -/
def AgreeOn (m n : Memory δ) (ps : List Span) : Prop := ∀ p ∈ ps, ∀ i ∈ p, n i = m i

theorem AgreeOn.mono (h : m.AgreeOn n ps) (hq : qs ⊆ ps) : m.AgreeOn n qs :=
  fun p hp => h p (hq hp)

theorem AgreeOn.get_eq (h : m.AgreeOn n ps) {p : Span} (hp : p ∈ ps) {i : Nat} (hi : i < p.length) :
    n.get p i = m.get p i :=
  h p hp _ ⟨Nat.le_add_right _ _, Nat.add_lt_add_left hi _⟩

theorem AgreeOn.limits_eq (h : m.AgreeOn n ps) {p : Pipe} (hp : p.limits ⊆ ps) (he : p.Even)
    {i : Nat} (hi : i < p.length) : n.limits p i = m.limits p i :=
  Prod.ext (h.get_eq (hp (by simp [Pipe.limits])) (he.1 ▸ hi))
    (h.get_eq (hp (by simp [Pipe.limits])) (he.2 ▸ hi))

end Memory

/-- All valid elements of the pipe lie in their limits. -/
def Pipe.Kept (p : Pipe) (m : Memory ExactValue) : Prop :=
  ∀ i < p.length, ExactValue.Kept (m.limits p i) (m.get p.data i)

theorem Pipe.Kept.view {p v : Pipe} {m : Memory ExactValue} (h : p.Kept m) (hv : v ∈ p.views) :
    v.Kept m := by
  rcases mem_views hv with rfl | ⟨k, hk⟩
  · exact h
  · obtain ⟨hd, hl, hu⟩ := element?_eq_some hk
    obtain ⟨hlt, hdata⟩ := Span.element?_eq_some hd
    intro i hi
    have hzero : i = 0 := by
      rw [length, hdata] at hi
      exact Nat.lt_one_iff.1 hi
    have hget : ∀ q w : Span, q.element? k = some w → m.get w i = m.get q k := fun q w hw => by
      rw [(Span.element?_eq_some hw).2, hzero]
      rfl
    rw [Memory.limits, hget _ _ hd, hget _ _ hl, hget _ _ hu]
    exact h k hlt

theorem Mapping.taken?_congr {β : Type} (k : Mapping) {ps : List Pipe} {g g' : Pipe → Nat → β}
    (h : ∀ p ∈ ps, ∀ i < p.length, g p i = g' p i) : k.taken? ps g = k.taken? ps g' := by
  rw [taken?, taken?]
  cases hp : ps[k.input]? with
  | none => rfl
  | some p =>
    rw [Option.bind_some, Option.bind_some]
    split
    · next hlt => rw [h p (List.mem_of_getElem? hp) _ hlt]
    · rfl

namespace Operator

/-- Where limits of outputs and inputs are kept, and factors. -/
def steady (op : Operator) : List Span := op.fixed ++ op.inputs.flatMap Pipe.limits

/-- Units are numbers in ascending order, and no lower limit that they are scaled from is infinite:
such a calibration would multiply an infinite distance by a factor of zero. -/
def Graded (op : Operator) (m : Memory ExactValue) : Prop :=
  match op.kind, op.inputs with
  | .calibration _, [p] => ∀ i < op.firstOutput.length, (m.limits p i).1 ≠ number ⊥ ∧
      ∃ unitMin unitMax : ℝ, unitMin < unitMax ∧
        m.limits op.firstOutput i = (number unitMin, number unitMax)
  | _, _ => True

/-- What is remembered of an element lies in the limits of the element. -/
def Recalls (op : Operator) (m : Memory ExactValue) : Prop :=
  match op.kind, op.inputs with
  | .keepPrevious previous _, [p] =>
    ∀ i < p.length, ExactValue.Kept (m.limits p i) (m.get previous i)
  | _, _ => True

/-- If an element of the output is valid, it lies in its limits, and strictly for a difference. -/
def Fits (op : Operator) (l : ExactValue × ExactValue) (v : ExactValue) : Prop :=
  ExactValue.Kept l v ∧ (op.kind = .difference → Quantity.isValid v = true → Amid l v)

theorem fits_of_kept {op : Operator} {l : ExactValue × ExactValue} {v : ExactValue}
    (hkind : op.kind ≠ .difference) (h : ExactValue.Kept l v) : op.Fits l v :=
  ⟨h, fun hk => absurd hk hkind⟩

theorem fits_invalid (op : Operator) (l : ExactValue × ExactValue) : op.Fits l Quantity.invalid :=
  ⟨kept_invalid l, fun _ hv => by cases hv⟩

/-- All elements of the outputs fit. -/
def Keeps (op : Operator) (m : Memory ExactValue) : Prop :=
  ∀ o ∈ op.outputs, ∀ i < o.length, op.Fits (m.limits o i) (m.get o.data i)

theorem Keeps.kept {op : Operator} {m : Memory ExactValue} (h : op.Keeps m) {o : Pipe}
    (ho : o ∈ op.outputs) : o.Kept m :=
  fun i hi => (h o ho i hi).1

section Congruence

variable {slots : Nat} {op : Operator} {m n : Memory ExactValue} (h : InRange slots op)

include h

theorem limits_steady {δ : Type} {m n : Memory δ} (hsame : m.AgreeOn n op.steady) :
    ∀ p ∈ op.inputs ++ op.outputs, ∀ i < p.length, n.limits p i = m.limits p i := by
  intro p hp i hi
  refine hsame.limits_eq (fun q hq => ?_) (h.even p hp) hi
  rcases List.mem_append.1 hp with hp | hp
  · exact List.mem_append_right _ (List.mem_flatMap.2 ⟨p, hp, hq⟩)
  · exact List.mem_append_left _ (List.mem_append_left _ (List.mem_flatMap.2 ⟨p, hp, hq⟩))

theorem declares_congr {δ : Type} [Quantity δ] {m n : Memory δ} (hsame : m.AgreeOn n op.steady)
    (hd : op.Declares m) : op.Declares n := by
  have hlimits := limits_steady h hsame
  have hs := h.shaped
  obtain ⟨inputs, outputs, gate, kind⟩ := op
  intro i hi
  have hd := hd i hi
  cases kind with
  | calibration factors =>
    obtain ⟨p, o, rfl, rfl, hf, hl⟩ := hs
    have hi : i < o.length := hi
    have hfactor : n.get factors i = m.get factors i :=
      hsame.get_eq (by simp [steady, fixed, Kind.constants]) (by omega)
    change n.get factors i = calibrationFactor (n.limits o i).1 (n.limits o i).2 (n.limits p i).1
      (n.limits p i).2
    rw [hfactor, hlimits o (by simp) i hi, hlimits p (by simp) i (by omega)]
    exact hd
  | difference =>
    obtain ⟨a, b, o, rfl, rfl, hab, hl⟩ := hs
    have hi : i < o.length := hi
    change n.limits o i = differenceLimits (n.limits a i) (n.limits b i)
    rw [hlimits o (by simp) i hi, hlimits a (by simp) i (by omega),
      hlimits b (by simp) i (by omega)]
    exact hd
  | arrayMap mappings =>
    obtain ⟨o, rfl, hl⟩ := hs
    have htaken : ∀ k : Mapping, k.taken? inputs n.limits = k.taken? inputs m.limits := fun k =>
      k.taken?_congr fun p hp => hlimits p (List.mem_append_left _ hp)
    change n.limits o i = ((mappings[i]?).bind fun k => k.taken? inputs n.limits).getD _
    rw [hlimits o (by simp) i hi, funext htaken]
    exact hd
  | keepPrevious | rangeFilter =>
    obtain ⟨p, o, rfl, rfl, hl⟩ := hs
    have hi : i < o.length := hi
    change n.limits o i = n.limits p i
    rw [hlimits o (by simp) i hi, hlimits p (by simp) i (by omega)]
    exact hd
  | conditionFilter =>
    obtain ⟨d, c, o, rfl, rfl, -, hl⟩ := hs
    have hi : i < o.length := hi
    change n.limits o i = n.limits d i
    rw [hlimits o (by simp) i hi, hlimits d (by simp) i (by omega)]
    exact hd
  | _ => trivial

theorem graded_congr (hsame : m.AgreeOn n op.steady) (hg : op.Graded m) : op.Graded n := by
  have hlimits := limits_steady h hsame
  have hs := h.shaped
  obtain ⟨inputs, outputs, gate, kind⟩ := op
  cases kind with
  | calibration factors =>
    obtain ⟨p, o, rfl, rfl, hf, hl⟩ := hs
    intro i hi
    have hi : i < o.length := hi
    change (n.limits p i).1 ≠ _ ∧ ∃ a b : ℝ, a < b ∧ n.limits o i = _
    rw [hlimits o (by simp) i hi, hlimits p (by simp) i (by omega)]
    exact hg i hi
  | _ => trivial

theorem recalls_congr (hsame : m.AgreeOn n op.steady) (hstate : m.AgreeOn n op.kind.state)
    (hr : op.Recalls m) : op.Recalls n := by
  have hlimits := limits_steady h hsame
  have hs := h.shaped
  obtain ⟨inputs, outputs, gate, kind⟩ := op
  cases kind with
  | keepPrevious previous keepValid =>
    obtain ⟨p, o, rfl, rfl, hf, hl⟩ := hs
    intro i hi
    rw [hlimits p (by simp) i hi, hstate.get_eq (List.mem_singleton_self previous) (by omega)]
    exact hr i hi
  | _ => trivial

theorem keeps_congr (hsame : m.AgreeOn n (op.outputs.flatMap Pipe.spans)) (hk : op.Keeps m) :
    op.Keeps n := by
  intro o ho i hi
  have hspans : o.spans ⊆ op.outputs.flatMap Pipe.spans := fun q hq =>
    List.mem_flatMap.2 ⟨o, ho, hq⟩
  have heven := h.even o (List.mem_append_right _ ho)
  rw [hsame.limits_eq (fun q hq => hspans (limits_subset_spans o hq)) heven hi,
    hsame.get_eq (hspans o.data_mem_spans) hi]
  exact hk o ho i hi

end Congruence

section Step

variable {slots : Nat} {op : Operator} {m : Memory ExactValue} {i : Nat}

/-- What a mapping takes lies in the limits that it takes along. -/
theorem mapped_kept {ps : List Pipe} (hin : ∀ p ∈ ps, p.Kept m) (k : Option Mapping)
    (l : ExactValue × ExactValue) :
    ExactValue.Kept ((k.bind fun k => k.taken? ps m.limits).getD l)
      ((k.bind fun k => k.taken? ps fun p => m.get p.data).getD Quantity.invalid) := by
  cases k with
  | none => exact kept_invalid _
  | some k =>
    rw [Option.bind_some, Option.bind_some, Mapping.taken?, Mapping.taken?]
    cases hp : ps[k.input]? with
    | none => exact kept_invalid _
    | some p =>
      rw [Option.bind_some, Option.bind_some]
      split
      · next hlt => exact hin p (List.mem_of_getElem? hp) k.element hlt
      · exact kept_invalid _

/-- An element that an open step makes fits. -/
theorem outcome_fits (h : InRange slots op) (hk : op.kind.isElementwise = true)
    (hd : op.Declares m) (hg : op.Graded m) (hr : op.Recalls m) (hin : ∀ v ∈ op.inputs, v.Kept m)
    (hi : i < op.firstOutput.length) : op.Fits (m.limits op.firstOutput i) (op.outcome m i) := by
  have hs := h.shaped
  obtain ⟨inputs, outputs, gate, kind⟩ := op
  have hd := hd i hi
  cases kind with
  | calibration factors =>
    obtain ⟨p, o, rfl, rfl, hf, hl⟩ := hs
    have hi : i < o.length := hi
    obtain ⟨hbot, unitMin, unitMax, hunits, hlimits⟩ := hg i hi
    have hkept := calibrated_kept (hin p (by simp) i (by omega)) hbot hunits
    have hlimits : m.limits o i = (number unitMin, number unitMax) := hlimits
    have hd : m.get factors i = calibrationFactor (m.limits o i).1 (m.limits o i).2
      (m.limits p i).1 (m.limits p i).2 := hd
    refine fits_of_kept (fun hkind => by cases hkind) ?_
    change ExactValue.Kept (m.limits o i) (Quantity.calibrated (m.get p.data i) (m.limits p i).1
      (m.limits o i).1 (m.get factors i))
    rw [hd, hlimits]
    exact hkept
  | keepPrevious previous keepValid =>
    obtain ⟨p, o, rfl, rfl, hf, hl⟩ := hs
    have hi : i < o.length := hi
    have hd : m.limits o i = m.limits p i := hd
    refine fits_of_kept (fun hkind => by cases hkind) ?_
    change ExactValue.Kept (m.limits o i) (m.get previous i)
    rw [hd]
    exact hr i (by omega)
  | difference =>
    obtain ⟨a, b, o, rfl, rfl, hab, hl⟩ := hs
    have hi : i < o.length := hi
    have hd : m.limits o i = differenceLimits (m.limits a i) (m.limits b i) := hd
    have hamid : Quantity.isValid (Quantity.difference (m.get a.data i) (m.get b.data i)) = true →
        Amid (m.limits o i) (Quantity.difference (m.get a.data i) (m.get b.data i)) := by
      rw [hd]
      exact difference_amid (hin a (by simp) i (by omega)) (hin b (by simp) i (by omega))
    exact ⟨fun hv => (hamid hv).within, fun _ => hamid⟩
  | arrayMap mappings =>
    obtain ⟨o, rfl, hl⟩ := hs
    have hd : m.limits o i = ((mappings[i]?).bind fun k => k.taken? inputs m.limits).getD
      (Scalar.zero, Scalar.zero) := hd
    refine fits_of_kept (fun hkind => by cases hkind) ?_
    change ExactValue.Kept (m.limits o i) (((mappings[i]?).bind fun k =>
      k.taken? inputs fun p => m.get p.data).getD Quantity.invalid)
    rw [hd]
    exact mapped_kept hin mappings[i]? _
  | rangeFilter w inverted =>
    obtain ⟨p, o, rfl, rfl, hl⟩ := hs
    have hi : i < o.length := hi
    have hd : m.limits o i = m.limits p i := hd
    refine fits_of_kept (fun hkind => by cases hkind) ?_
    change ExactValue.Kept (m.limits o i) (Quantity.inRange _ inverted (m.get p.data i))
    rw [hd]
    exact inRange_kept (hin p (by simp) i (by omega)) _ inverted
  | conditionFilter inverted =>
    obtain ⟨d, c, o, rfl, rfl, -, hl⟩ := hs
    have hi : i < o.length := hi
    have hd : m.limits o i = m.limits d i := hd
    refine fits_of_kept (fun hkind => by cases hkind) ?_
    change ExactValue.Kept (m.limits o i) (Quantity.conditioned inverted _ (m.get d.data i))
    rw [hd]
    exact conditioned_kept (hin d (by simp) i (by omega)) inverted _
  | _ => cases hk

/-- A step writes the output, and what is remembered. -/
theorem act_frame {δ : Type} [Quantity δ] {m : Memory δ} (hk : op.kind.isElementwise = true)
    (hs : op.Shaped) (isOpen : Bool) {k : Nat} (hw : ∀ q ∈ op.written, k ∉ q) :
    op.act isOpen m k = m k := by
  have hwritten : op.written = op.firstOutput.data :: op.kind.state := by
    rw [written, outputs_elementwise hk hs]
    rfl
  rw [hwritten, List.forall_mem_cons] at hw
  rw [act, if_neg hw.1, retain_of_not_state hw.2, ite_self]

theorem renew_frame {δ : Type} [Quantity δ] {m : Memory δ} {k : Nat}
    (hw : ∀ q ∈ op.kind.state, k ∉ q) : op.renew m k = m k := by
  obtain ⟨inputs, outputs, gate, kind⟩ := op
  cases kind with
  | keepPrevious previous keepValid => exact if_neg (hw previous List.mem_cons_self)
  | _ => rfl

theorem get_act_output {δ : Type} [Quantity δ] {m : Memory δ} (isOpen : Bool)
    (hi : i < op.firstOutput.length) : (op.act isOpen m).get op.firstOutput.data i =
      if isOpen then op.outcome m i else Quantity.invalid := by
  have hmem : op.firstOutput.data.offset + i ∈ op.firstOutput.data :=
    ⟨Nat.le_add_right _ _, Nat.add_lt_add_left hi _⟩
  rw [Memory.get, act, if_pos hmem, Nat.add_sub_cancel_left]

theorem keeps_act (h : InRange slots op) (hk : op.kind.isElementwise = true)
    (hd : op.Declares m) (hg : op.Graded m) (hr : op.Recalls m) (isOpen : Bool)
    (hin : isOpen = true → ∀ v ∈ op.inputs, v.Kept m)
    (hsame : m.AgreeOn (op.act isOpen m) op.steady) : op.Keeps (op.act isOpen m) := by
  have hout := outputs_elementwise hk h.shaped
  have hmem : op.firstOutput ∈ op.outputs := hout ▸ List.mem_singleton_self _
  intro o ho i hi
  obtain rfl : o = op.firstOutput := List.mem_singleton.1 (hout ▸ ho)
  rw [limits_steady h hsame _ (List.mem_append_right _ hmem) i hi, get_act_output isOpen hi]
  cases isOpen
  · exact fits_invalid op _
  · exact outcome_fits h hk hd hg hr (hin rfl) hi

theorem recalls_act (h : InRange slots op) (hr : op.Recalls m) (isOpen : Bool)
    (hin : isOpen = true → ∀ v ∈ op.inputs, v.Kept m)
    (hsame : m.AgreeOn (op.act isOpen m) op.steady) : op.Recalls (op.act isOpen m) := by
  have hlimits := limits_steady h hsame
  have hs := h.shaped
  obtain ⟨inputs, outputs, gate, kind⟩ := op
  cases kind with
  | keepPrevious previous keepValid =>
    obtain ⟨p, o, rfl, rfl, hf, hl⟩ := hs
    have happ : previous.Apart o.data := h.output_apart_memory (List.mem_singleton_self o)
      o.data_mem_spans (List.mem_singleton_self previous)
    intro i hi
    have hi' : i < previous.length := by omega
    have hnot : previous.offset + i ∉ o.data :=
      happ _ ⟨Nat.le_add_right _ _, Nat.add_lt_add_left hi' _⟩
    have hget : (act ⟨[p], [o], gate, .keepPrevious previous keepValid⟩ isOpen m).get previous i =
        if isOpen then retain ⟨[p], [o], gate, .keepPrevious previous keepValid⟩ m
          (previous.offset + i) else m.get previous i := if_neg hnot
    rw [hlimits p (by simp) i hi, hget]
    cases isOpen
    · exact hr i hi
    · rw [if_pos rfl, retain_previous hi']
      exact remembered_kept (hin rfl p (List.mem_singleton_self p) i hi) (hr i hi) keepValid
  | _ => trivial

/-- Nothing is remembered when a run begins. -/
theorem recalls_renew (h : InRange slots op) : op.Recalls (op.renew m) := by
  have hs := h.shaped
  obtain ⟨inputs, outputs, gate, kind⟩ := op
  cases kind with
  | keepPrevious previous keepValid =>
    obtain ⟨p, o, rfl, rfl, hf, hl⟩ := hs
    intro i hi
    have hmem : previous.offset + i ∈ previous :=
      ⟨Nat.le_add_right _ _, Nat.add_lt_add_left (by omega) _⟩
    have hget : (renew ⟨[p], [o], gate, .keepPrevious previous keepValid⟩ m).get previous i =
        Quantity.invalid := if_pos hmem
    rw [hget]
    exact kept_invalid _
  | _ => trivial

end Step

theorem exact_elementwise {op : Operator} (hk : op.kind.isElementwise = true) : op.kind.Exact := by
  intro n hn
  obtain ⟨inputs, outputs, gate, kind⟩ := op
  cases kind with
  | planeHistogram => cases hk
  | _ => cases hn

theorem fixed_apart_written {op : Operator} (h : op.owned.Pairwise Span.Apart) :
    ∀ p ∈ op.fixed, ∀ q ∈ op.written, p.Apart q := fun p hp q hq =>
  (List.pairwise_append.1 (h.perm op.owned_parts fun k => k.symm)).2.2 p hp q
    (List.mem_append_left _ hq)

theorem fixed_subset_owned (op : Operator) : op.fixed ⊆ op.owned := fun _ hp =>
  op.owned_parts.symm.subset (List.mem_append_left _ hp)

theorem written_subset_owned (op : Operator) : op.written ⊆ op.owned := fun _ hp =>
  op.owned_parts.symm.subset (List.mem_append_right _ (List.mem_append_left _ hp))

theorem state_subset_owned (op : Operator) : op.kind.state ⊆ op.owned := fun _ hp =>
  op.written_subset_owned (List.mem_append_right _ hp)

theorem outputs_subset_owned (op : Operator) : op.outputs.flatMap Pipe.spans ⊆ op.owned :=
  fun _ hp => List.mem_append_left _ (List.mem_append_left _ hp)

/-- Operators of one arena, none of which writes what another one owns, limits that another one
reads or limits of its own. -/
structure Aligned (slots : Nat) (ops : List Operator) : Prop where
  elementwise : ∀ op ∈ ops, op.kind.isElementwise = true
  inRange : ∀ op ∈ ops, InRange slots op
  steady : ∀ a ∈ ops, ∀ b ∈ ops, ∀ p ∈ b.steady, ∀ q ∈ a.written, p.Apart q
  owned : ∀ a ∈ ops, ∀ b ∈ ops, a ≠ b → ∀ p ∈ b.owned, ∀ q ∈ a.owned, p.Apart q

end Operator

theorem Pipe.Inside.limits {v p : Pipe} (h : v.Inside p) {q : Span} (hq : q ∈ v.limits) :
    ∃ t ∈ p.limits, ∀ i ∈ q, i ∈ t := by
  simp only [Pipe.limits, List.mem_cons, List.not_mem_nil, or_false] at hq
  rcases hq with rfl | rfl
  · exact ⟨p.lower, by simp [Pipe.limits], h.lower⟩
  · exact ⟨p.upper, by simp [Pipe.limits], h.upper⟩

theorem Workbench.Sound.aligned {w : Workbench} (h : w.Sound) {ops : List Operator}
    (hops : ∀ op ∈ ops, op ∈ w.allOperators ∧ op.kind.isElementwise = true) :
    Operator.Aligned w.plan.arena.store.slots ops := by
  have hplaced := List.pairwise_flatMap.1 (List.pairwise_append.1 h.placed.apart).2.1
  have howned : ∀ a ∈ ops, ∀ b ∈ ops, a ≠ b → ∀ p ∈ b.owned, ∀ q ∈ a.owned, p.Apart q := by
    intro a ha b hb hab
    have hsymm : Std.Symm fun a b : Operator => ∀ p ∈ a.owned, ∀ q ∈ b.owned, p.Apart q :=
      ⟨fun _ _ hxy p hp q hq => (hxy q hq p hp).symm⟩
    exact hplaced.2.forall (hops b hb).1 (hops a ha).1 hab.symm
  refine ⟨fun op ho => (hops op ho).2, fun op ho => ?_, fun a ha b hb p hp q hq => ?_, howned⟩
  · exact h.inRange_operator (hops op ho).1 (Operator.exact_elementwise (hops op ho).2)
  · have hfixed := Operator.fixed_apart_written (hplaced.1 a (hops a ha).1)
    rcases List.mem_append.1 hp with hp | hp
    · by_cases hab : a = b
      · subst hab
        exact hfixed p hp q hq
      · exact howned a ha b hb hab p (b.fixed_subset_owned hp) q (a.written_subset_owned hq)
    · -- limits of an input are limits of an output, or nothing of the operator
      obtain ⟨v, hv, hp⟩ := List.mem_flatMap.1 hp
      obtain ⟨t, ht, hvt, -⟩ := (h.operators b (hops b hb).1).inputs v hv
      have hinside := Pipe.inside_of_mem_views hvt
      rcases h.tap_cases (hops a ha).1 ht with hta | hta
      · obtain ⟨u, hu, hsub⟩ := hinside.limits hp
        have huf : u ∈ a.fixed := List.mem_append_left _ (List.mem_flatMap.2 ⟨t, hta, hu⟩)
        exact fun i hi => hfixed u huf q hq i (hsub i hi)
      · exact (Pipe.apart_of_inside hinside (Operator.limits_subset_spans v hp)
          (hta q (a.written_subset_owned hq))).symm

namespace Operator

/-- What holds of an arena over exact values while operators begin runs and step. -/
structure Keeping (ops begun done : List Operator) (m : Memory ExactValue) : Prop where
  begun_subset : begun ⊆ ops
  done_subset : done ⊆ begun
  declares : ∀ op ∈ ops, op.Declares m
  graded : ∀ op ∈ ops, op.Graded m
  recalls : ∀ op ∈ begun, op.Recalls m
  keeps : ∀ op ∈ done, op.Keeps m

namespace Keeping

variable {slots : Nat} {ops begun done begun' done' : List Operator} {m n : Memory ExactValue}
  {op : Operator}

/-- Limits stay declared and graded as long as nothing writes limits and factors. -/
theorem agree (hk : Keeping ops begun done m) (ha : Aligned slots ops)
    (hsteady : ∀ b ∈ ops, m.AgreeOn n b.steady) (hbegun : begun' ⊆ ops) (hdone : done' ⊆ begun')
    (hrecalls : ∀ b ∈ begun', b.Recalls n) (hkeeps : ∀ b ∈ done', b.Keeps n) :
    Keeping ops begun' done' n where
  begun_subset := hbegun
  done_subset := hdone
  declares b hb := declares_congr (ha.inRange b hb) (hsteady b hb) (hk.declares b hb)
  graded b hb := graded_congr (ha.inRange b hb) (hsteady b hb) (hk.graded b hb)
  recalls := hrecalls
  keeps := hkeeps

/-- What an operator writes is of no account to the other ones. -/
theorem write (hk : Keeping ops begun done m) (ha : Aligned slots ops) (ho : op ∈ ops)
    (hframe : ∀ k, (∀ q ∈ op.written, k ∉ q) → n k = m k) (hbegun : begun' ⊆ op :: begun)
    (hdone : done' ⊆ op :: done) (hsub : done' ⊆ begun') (hrecalls : op.Recalls n)
    (hkeeps : op ∈ done' → op.Keeps n) : Keeping ops begun' done' n := by
  have hagree : ∀ ps : List Span, (∀ p ∈ ps, ∀ q ∈ op.written, p.Apart q) → m.AgreeOn n ps :=
    fun ps hps p hp k hkp => hframe k fun q hq hkq => hps p hp q hq k hkp hkq
  have hsteady : ∀ b ∈ ops, m.AgreeOn n b.steady := fun b hb =>
    hagree _ (ha.steady op ho b hb)
  have howned : ∀ b ∈ ops, op ≠ b → m.AgreeOn n b.owned := fun b hb hne =>
    hagree _ fun p hp q hq => ha.owned op ho b hb hne p hp q (op.written_subset_owned hq)
  have hops : ∀ b ∈ begun', b ∈ ops := fun b hb => by
    rcases List.mem_cons.1 (hbegun hb) with rfl | hb
    · exact ho
    · exact hk.begun_subset hb
  refine hk.agree ha hsteady hops hsub (fun b hb => ?_) fun b hb => ?_
  · by_cases hne : op = b
    · exact hne ▸ hrecalls
    · have hold : b ∈ begun := (List.mem_cons.1 (hbegun hb)).resolve_left (Ne.symm hne)
      have hb := hops b hb
      exact recalls_congr (ha.inRange b hb) (hsteady b hb)
        ((howned b hb hne).mono b.state_subset_owned) (hk.recalls b hold)
  · by_cases hne : op = b
    · exact hne ▸ hkeeps (hne ▸ hb)
    · have hold : b ∈ done := (List.mem_cons.1 (hdone hb)).resolve_left (Ne.symm hne)
      have hb := hops b (hsub hb)
      exact keeps_congr (ha.inRange b hb) ((howned b hb hne).mono b.outputs_subset_owned)
        (hk.keeps b hold)

theorem act (hk : Keeping ops begun done m) (ha : Aligned slots ops) (ho : op ∈ begun)
    (isOpen : Bool) (hin : isOpen = true → ∀ v ∈ op.inputs, v.Kept m) :
    Keeping ops begun (op :: done) (op.act isOpen m) := by
  have hmem : op ∈ ops := hk.begun_subset ho
  have hrange := ha.inRange op hmem
  have helem := ha.elementwise op hmem
  have hframe : ∀ k, (∀ q ∈ op.written, k ∉ q) → op.act isOpen m k = m k := fun _ hw =>
    act_frame helem hrange.shaped isOpen hw
  have hsame : m.AgreeOn (op.act isOpen m) op.steady := fun p hp k hkp =>
    hframe k fun q hq hkq => ha.steady op hmem op hmem p hp q hq k hkp hkq
  have hrecalls := hk.recalls op ho
  refine hk.write ha hmem hframe (List.subset_cons_self op begun) (List.Subset.refl _) ?_ ?_ ?_
  · exact List.cons_subset.2 ⟨ho, hk.done_subset⟩
  · exact recalls_act hrange hrecalls isOpen hin hsame
  · exact fun _ => keeps_act hrange helem (hk.declares op hmem) (hk.graded op hmem) hrecalls isOpen
      hin hsame

theorem renew (hk : Keeping ops begun done m) (ha : Aligned slots ops) (ho : op ∈ ops) :
    Keeping ops (op :: begun) done (op.renew m) := by
  have hrange := ha.inRange op ho
  have hframe : ∀ k, (∀ q ∈ op.kind.state, k ∉ q) → op.renew m k = m k := fun _ => renew_frame
  refine hk.write ha ho (fun k hw => hframe k fun q hq => hw q (List.mem_append_right _ hq))
    (List.Subset.refl _) (List.subset_cons_self op done) ?_ (recalls_renew hrange) fun hd => ?_
  · exact fun b hb => List.mem_cons_of_mem op (hk.done_subset hb)
  · refine keeps_congr hrange (fun p hp k hkp => hframe k fun q hq hkq => ?_) (hk.keeps op hd)
    obtain ⟨o, hout, hp⟩ := List.mem_flatMap.1 hp
    have hmemory : q ∈ op.kind.memory := op.kind.memory_eq ▸ List.mem_append_right _ hq
    exact hrange.output_apart_memory hout hp hmemory k hkq hkp

theorem others (hk : Keeping ops begun done m) (ha : Aligned slots ops)
    (hsame : ∀ b ∈ ops, m.AgreeOn n (b.owned ++ b.inputs.flatMap Pipe.limits)) :
    Keeping ops begun done n := by
  have howned : ∀ b ∈ ops, m.AgreeOn n b.owned := fun b hb =>
    (hsame b hb).mono (List.subset_append_left _ _)
  have hsteady : ∀ b ∈ ops, m.AgreeOn n b.steady := fun b hb => by
    refine (hsame b hb).mono (List.append_subset.2 ⟨?_, List.subset_append_right _ _⟩)
    exact List.subset_append_of_subset_left _ b.fixed_subset_owned
  refine hk.agree ha hsteady hk.begun_subset hk.done_subset (fun b hb => ?_) fun b hb => ?_
  · have hmem := hk.begun_subset hb
    exact recalls_congr (ha.inRange b hmem) (hsteady b hmem)
      ((howned b hmem).mono b.state_subset_owned) (hk.recalls b hb)
  · have hmem := hk.begun_subset (hk.done_subset hb)
    exact keeps_congr (ha.inRange b hmem) ((howned b hmem).mono b.outputs_subset_owned)
      (hk.keeps b hb)

end Keeping

/-- What an arena over exact values comes to hold from the time when limits are declared: operators
begin runs and step, and what does not belong to them changes in any way. Whenever a step is open,
valid elements of inputs lie in their limits, apart from inputs that operators made which stepped
before. -/
inductive Flow (ops : List Operator) :
    List Operator → List Operator → Memory ExactValue → Prop
  | start {m : Memory ExactValue} (h : ∀ op ∈ ops, op.Declares m ∧ op.Graded m) : Flow ops [] [] m
  | begins {begun done : List Operator} {m : Memory ExactValue} {op : Operator}
    (h : Flow ops begun done m) (ho : op ∈ ops) : Flow ops (op :: begun) done (op.renew m)
  | steps {begun done : List Operator} {m : Memory ExactValue} {op : Operator}
    (h : Flow ops begun done m) (ho : op ∈ begun) (isOpen : Bool)
    (hin : isOpen = true → ∀ v ∈ op.inputs,
      v.Kept m ∨ ∃ k ∈ done, ∃ p ∈ k.outputs, v ∈ p.views) :
    Flow ops begun (op :: done) (op.act isOpen m)
  | others {begun done : List Operator} {m n : Memory ExactValue} (h : Flow ops begun done m)
    (hsame : ∀ op ∈ ops, m.AgreeOn n (op.owned ++ op.inputs.flatMap Pipe.limits)) :
    Flow ops begun done n

theorem Flow.keeping {slots : Nat} {ops begun done : List Operator} {m : Memory ExactValue}
    (h : Flow ops begun done m) (ha : Aligned slots ops) : Keeping ops begun done m := by
  induction h with
  | start h =>
    exact ⟨List.nil_subset _, List.nil_subset _, fun op ho => (h op ho).1, fun op ho => (h op ho).2,
      by simp, by simp⟩
  | begins _ ho ih => exact ih.renew ha ho
  | steps _ ho isOpen hin ih =>
    refine ih.act ha ho isOpen fun hopen v hv => ?_
    rcases hin hopen v hv with hkept | ⟨k, hk, p, hp, hvp⟩
    · exact hkept
    · exact ((ih.keeps k hk).kept hp).view hvp
  | others _ hsame ih => exact ih.others ha hsame

/-- In exact arithmetic limits survive element-wise operators, so no entry of a default-binned sink
behind them lies beside its axis. This is about the operators of the workbench: over doubles `act`
and `renew` are what they do, their makers declare the limits and factors in question, and a sink
spans the limits of its elements. Limits may be any numbers, and infinite ones too, but for the
lower limits of what is scaled. -/
theorem limits_kept (capacity : Nat) (strategy : FillStrategy) (calls : List BuildCall)
    {ops begun done : List Operator} {m : Memory ExactValue}
    (hops : ∀ op ∈ ops, op ∈ (Workbench.after capacity strategy calls).allOperators ∧
      op.kind.isElementwise = true)
    (hflow : Flow ops begun done m) :
    (∀ op ∈ done, op.Keeps m ∧ ∀ o ∈ op.outputs, ∀ v ∈ o.views, ∀ i < v.length,
      Quantity.isValid (m.get v.data i) = true →
        Quantity.spans (m.limits v i).1 (m.limits v i).2 (m.get v.data i) = true) ∧
    (∀ op ∈ ops, ∀ f : Frame,
      f.store.slots = (Workbench.after capacity strategy calls).plan.arena.store.slots →
        (op.step f).2.store.read = op.act (op.isOpen f.bits) f.store.read ∧
        (op.beginRun f).2.store.read = op.renew f.store.read) ∧
    (∀ (r : Recipe) (made : Operator) (a : Arena), r.isElementwise = true →
      (Workbench.after capacity strategy calls).Offers r.inputs →
      r.make (Workbench.after capacity strategy calls).plan.arena = (.ok made, a) →
        made.kind.isElementwise = true ∧ made.Declares a.store.read) ∧
    (∀ (p : Pipe) (bins : Nat) (made sink : Operator) (a : Arena) (gate : Option Nat) (f : Frame),
      (Recipe.histograms p bins none).make (Workbench.after capacity strategy calls).plan.arena =
        (.ok made, a) →
      sink.resting = { made with gate := gate }.resting →
      (∀ i < p.length, (f.store.get p.data i).isValid = true → Quantity.spans
        ((Workbench.after capacity strategy calls).plan.arena.store.get p.lower i)
        ((Workbench.after capacity strategy calls).plan.arena.store.get p.upper i)
        (f.store.get p.data i) = true) →
      (sink.step f).1.beside = sink.beside) := by
  have hsound := Workbench.sound_after capacity strategy calls
  have ha := hsound.aligned hops
  have hkeeping := hflow.keeping ha
  refine ⟨fun op ho => ?_, fun op ho f hslots => ?_, fun r made a hr hoffers hmake => ?_, ?_⟩
  · have hkeeps := hkeeping.keeps op ho
    refine ⟨hkeeps, fun o hout v hv i hi hvalid => ?_⟩
    exact spans_of_within ((hkeeps.kept hout).view hv i hi hvalid)
  · have hk := ha.elementwise op ho
    have hrange : InRange f.store.slots op := hslots ▸ ha.inRange op ho
    exact ⟨read_step hk hrange, read_beginRun hk hrange⟩
  · obtain ⟨hk, hdeclares⟩ := Recipe.declares_make hr hmake
    have hmade := hsound.makeOperator hoffers hmake
    exact ⟨hk, hdeclares (hmade.inRange_operator List.mem_cons_self (exact_elementwise hk))⟩
  · intro p bins made sink a gate f hmake hsink hspans
    exact beside_step hmake hsink hspans

section Sample

/-- A pipe of one element between zero and two, scaled to units between zero and one. -/
def unitCalls : List BuildCall :=
  [.pushPipe 1 .zero .two, .makeOperator (.calibration ⟨⟨0, 1⟩, ⟨4, 1⟩, ⟨8, 1⟩⟩ [(.zero, .one)])]

def unitCalibration : Operator :=
  .make (.calibration ⟨24, 1⟩) [⟨⟨0, 1⟩, ⟨4, 1⟩, ⟨8, 1⟩⟩] [⟨⟨12, 1⟩, ⟨16, 1⟩, ⟨20, 1⟩⟩]

/-- The input is at one, and the limits are as they were declared. -/
noncomputable def unitMemory : Memory ExactValue
  | 0 => number (1 : ℝ)
  | 8 => number (2 : ℝ)
  | 20 => number (1 : ℝ)
  | 24 => calibrationFactor (number (0 : ℝ)) (number (1 : ℝ)) (number (0 : ℝ)) (number (2 : ℝ))
  | _ => number (0 : ℝ)

theorem unitMemory_kept (v : Pipe) (hv : v ∈ unitCalibration.inputs) : v.Kept unitMemory := by
  obtain rfl := List.mem_singleton.1 hv
  intro i hi _
  obtain rfl : i = 0 := Nat.lt_one_iff.1 hi
  refine ⟨(0 : ℝ), (2 : ℝ), 1, rfl, rfl, ?_, ?_⟩
  · exact EReal.coe_le_coe_iff.2 zero_le_one
  · exact EReal.coe_lt_coe_iff.2 one_lt_two

theorem unitMemory_declared :
    unitCalibration.Declares unitMemory ∧ unitCalibration.Graded unitMemory := by
  refine ⟨fun i hi => ?_, fun i hi => ?_⟩
  · obtain rfl : i = 0 := Nat.lt_one_iff.1 hi
    rfl
  · obtain rfl : i = 0 := Nat.lt_one_iff.1 hi
    refine ⟨fun hbot => EReal.coe_ne_bot 0 (number.inj hbot), 0, 1, zero_lt_one, rfl⟩

theorem limits_kept_calibration :
    unitCalibration.Keeps (unitCalibration.act true (unitCalibration.renew unitMemory)) ∧
      Quantity.isValid
        ((unitCalibration.act true (unitCalibration.renew unitMemory)).get ⟨12, 1⟩ 0) = true := by
  have hmem : unitCalibration ∈ [unitCalibration] := List.mem_singleton_self _
  have hops : ∀ op ∈ [unitCalibration], op ∈ (Workbench.after 4096 .direct unitCalls).allOperators ∧
      op.kind.isElementwise = true := by
    intro op ho
    obtain rfl := List.mem_singleton.1 ho
    exact ⟨List.mem_singleton_self _, rfl⟩
  have hstart : Flow [unitCalibration] [] [] unitMemory :=
    .start fun op ho => List.mem_singleton.1 ho ▸ unitMemory_declared
  have hflow := (hstart.begins hmem).steps List.mem_cons_self true
    fun _ v hv => .inl (unitMemory_kept v hv)
  obtain ⟨hdone, -⟩ := limits_kept 4096 .direct unitCalls hops hflow
  refine ⟨(hdone unitCalibration List.mem_cons_self).1, ?_⟩
  have hinput := unitMemory_kept _ (List.mem_singleton_self _) 0 Nat.one_pos rfl
  have hbot : (number (0 : ℝ) : ExactValue) ≠ number ⊥ := fun h => EReal.coe_ne_bot 0 (number.inj h)
  obtain ⟨_, _, x, -, hvalue, -⟩ := calibrated_within hinput hbot zero_lt_one
  exact congrArg Quantity.isValid hvalue

end Sample

end Operator

end Readout
