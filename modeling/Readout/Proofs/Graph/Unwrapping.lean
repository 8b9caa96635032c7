import Readout.Proofs.Graph.Lookback
import Readout.Proofs.Source.Limits
import Readout.Proofs.Value.Whole

/-!
# Unwrapping counters

A counter that wraps around at a limit shows what its true count leaves over when it is divided by
the limit. As long as the count grows by less than the limit between two valid readings, it has
wrapped around once where the readings go back and not at all where they do not. So the overflows
that are counted are the quotient, and the reading with that many limits added to it is the count.
-/
namespace Readout

/-- Between two counts a counter wraps around at most once, and not before the first one. -/
def Advances (limit : Nat) : Option Nat → Nat → Prop
  | none, t => t < limit
  | some before, t => before ≤ t ∧ t - before < limit

/-- The valid ones of some readings are those of a counter that wraps around at `limit`, which never
wraps around unnoticed. -/
structure Wraps (limit : Nat) (counts : List Nat) (vs : List Value) : Prop where
  shown : List.Forall₂ (fun v t => v.Denotes (t % limit : ℕ)) (vs.filter Value.isValid) counts
  start : ∀ t ∈ counts.head?, Advances limit none t
  grows : counts.IsChain fun before t => Advances limit (some before) t
  exact : ∀ t ∈ counts, t < 2 ^ 53

theorem div_of_advances {limit before t : Nat} (h : Advances limit (some before) t) :
    t / limit = if t % limit < before % limit then before / limit + 1 else before / limit := by
  obtain ⟨hle, hlt⟩ := h
  have hpos : 0 < limit := Nat.zero_lt_of_lt hlt
  have hbefore := Nat.div_add_mod before limit
  have hcount := Nat.div_add_mod t limit
  have hlo : before / limit ≤ t / limit := Nat.div_le_div_right hle
  have hhi : t / limit ≤ before / limit + 1 := by
    rw [← Nat.add_div_right before hpos]
    exact Nat.div_le_div_right (by omega)
  rcases Nat.eq_or_lt_of_le hlo with heq | hnext
  · rw [← heq] at hcount ⊢
    rw [if_neg (by omega)]
  · have hstep : t / limit = before / limit + 1 := by omega
    rw [hstep, Nat.mul_add, Nat.mul_one] at hcount
    rw [hstep, if_pos (by omega)]

namespace Wraps

variable {limit : Nat} {counts : List Nat} {vs : List Value} {v : Value}

theorem eq_nil (h : Wraps limit counts []) : counts = [] := List.forall₂_nil_left_iff.1 h.shown

theorem of_invalid (h : Wraps limit counts (vs ++ [v])) (hv : v.isValid = false) :
    Wraps limit counts vs := by
  refine ⟨?_, h.start, h.grows, h.exact⟩
  simpa [List.filter_append, hv] using h.shown

/-- The last valid reading is one of the last count, which follows the one in front of it. -/
theorem of_valid (h : Wraps limit counts (vs ++ [v])) (hv : v.isValid = true) :
    ∃ front t, counts = front ++ [t] ∧ Wraps limit front vs ∧ v.Denotes (t % limit : ℕ) ∧
      Advances limit front.getLast? t := by
  have hshown := h.shown
  rw [List.filter_append, List.filter_cons_of_pos hv, List.filter_nil, ← List.forall₂_reverse_iff,
    List.reverse_append, List.reverse_singleton, List.singleton_append] at hshown
  obtain ⟨t, rest, ht, hrest, hcounts⟩ := List.forall₂_cons_left_iff.1 hshown
  obtain rfl : counts = rest.reverse ++ [t] := by
    rw [← List.reverse_reverse counts, hcounts, List.reverse_cons]
  obtain ⟨hfront, -, hlast⟩ := List.isChain_append.1 h.grows
  refine ⟨_, t, rfl, ⟨?_, fun x hx => ?_, hfront, fun x hx => ?_⟩, ht, ?_⟩
  · rw [← List.forall₂_reverse_iff, List.reverse_reverse]
    exact hrest
  · refine h.start x ?_
    rw [List.head?_append, hx]
    rfl
  · exact h.exact x (List.mem_append_left _ hx)
  · cases hbefore : rest.reverse.getLast? with
    | none =>
      rw [List.getLast?_eq_none_iff] at hbefore
      exact h.start t (by rw [hbefore]; rfl)
    | some before => exact hlast before hbefore t rfl

end Wraps

namespace Element

/-- What the unwrapping of a counter keeps, the last valid reading and the count of overflows. -/
def counted (kept : Value × Value) (v : Value) : Value × Value :=
  (remembered true kept.1 v, overflows kept.2 kept.1 v)

/-- What is kept when the counter has counted up to `t`, or has not been read yet. -/
def Keeps (limit : Nat) (t : Option Nat) (kept : Value × Value) : Prop :=
  (∀ n ∈ t, kept.1.Denotes (n % limit : ℕ)) ∧ (t = none → kept.1.isValid = false) ∧
    kept.2 = Value.ofNat (t.getD 0 / limit)

variable {limit t : Nat} {before : Option Nat} {kept : Value × Value} {v : Value}

theorem overflows_of_keeps (h : Keeps limit before kept) (hv : v.Denotes (t % limit : ℕ))
    (ht : Advances limit before t) (hexact : t < 2 ^ 53) :
    overflows kept.2 kept.1 v = Value.ofNat (t / limit) := by
  have hvalid := Value.isValid_of_isNaN_eq_false hv.1
  obtain ⟨hlast, hnone, hcount⟩ := h
  cases before with
  | none =>
    have hzero : t / limit = 0 := Nat.div_eq_of_lt ht
    rw [overflows, hnone rfl, hcount, hzero]
    simp
  | some n =>
    obtain ⟨hnan, hnumber⟩ := hlast n rfl
    have hback : Value.below v kept.1 = true ↔ t % limit < n % limit := by
      rw [Value.below_iff_number, hv.2, hnumber, EReal.natCast_lt_iff]
      simp [hv.1, hnan]
    have hle : t / limit < 2 ^ 53 := (Nat.div_le_self t limit).trans_lt hexact
    rw [overflows, hvalid, Value.isValid_of_isNaN_eq_false hnan, hcount, div_of_advances ht] at *
    by_cases hlt : t % limit < n % limit
    · rw [if_pos hlt] at *
      rw [hback.2 hlt]
      exact Value.ofNat_succ hle
    · rw [if_neg hlt, Bool.eq_false_iff.2 fun hb => hlt (hback.1 hb)]
      rfl

theorem keeps_counted (h : Keeps limit before kept) (hv : v.Denotes (t % limit : ℕ))
    (ht : Advances limit before t) (hexact : t < 2 ^ 53) :
    Keeps limit (some t) (counted kept v) := by
  refine ⟨fun n hn => ?_, nofun, overflows_of_keeps h hv ht hexact⟩
  obtain rfl := Option.some.inj hn
  rw [counted, remembered, Value.isValid_of_isNaN_eq_false hv.1]
  exact hv

/-- The reading and the overflows make up the count. -/
theorem unwrapped_eq {upper : Value} (hlimit : 0 < limit) (hupper : upper.Denotes limit)
    (hroom : limit < 2 ^ 53) (hv : v.Denotes (t % limit : ℕ)) (hexact : t < 2 ^ 53) :
    unwrapped upper (Value.ofNat (t / limit)) v = Value.ofNat t := by
  have hquotient : t / limit < 2 ^ 53 := (Nat.div_le_self t limit).trans_lt hexact
  have hproduct : t / limit * limit < 2 ^ 53 := (Nat.div_mul_le_self t limit).trans_lt hexact
  have hsum : t % limit + t / limit * limit = t := Nat.mod_add_div' t limit
  rw [unwrapped, Value.isValid_of_isNaN_eq_false hv.1, hupper.eq_ofNat hroom hlimit,
    Value.ofNat_mul hquotient hroom hproduct, if_pos rfl, hv.add_ofNat (by omega), hsum]

end Element

/-- After any readings of a wrapping counter, its last count is known. -/
theorem Wraps.keeps {limit : Nat} {counts : List Nat} {vs : List Value}
    (h : Wraps limit counts vs) :
    Element.Keeps limit counts.getLast? (vs.foldl Element.counted (Value.invalid, Value.zero)) := by
  induction vs using List.reverseRecOn generalizing counts with
  | nil =>
    rw [h.eq_nil]
    exact ⟨nofun, fun _ => rfl, by rw [List.getLast?_nil, Option.getD_none, Nat.zero_div]; rfl⟩
  | append_singleton vs v ih =>
    rw [List.foldl_append]
    cases hv : v.isValid with
    | true =>
      obtain ⟨front, t, rfl, hfront, hshown, hadvances⟩ := h.of_valid hv
      rw [List.getLast?_concat]
      exact Element.keeps_counted (ih hfront) hshown hadvances (h.exact t (by simp))
    | false =>
      have hkept := ih (h.of_invalid hv)
      generalize vs.foldl Element.counted _ = kept at hkept ⊢
      have hsame : Element.counted kept v = kept := by
        simp [Element.counted, Element.remembered, Element.overflows, hv]
      rwa [List.foldl_cons, hsame]

namespace Operator

open Moment

variable {op : Operator} {ms : List Moment} {s : Store} {f : Frame} {p o : Pipe}
  {gate : Option Nat} {last overflows : Span} {i : Nat}

/-- What an unwrapping operator remembers of an element is made of its readings. -/
theorem Course.counts
    (h : Course ⟨[p], [o], gate, .scalerOverflow last overflows⟩ ms op s) (hi : i < o.length) :
    (s.get last i, s.get overflows i) =
      (readings i ms).foldl Element.counted (Value.invalid, Value.zero) := by
  have hfixed := Kind.fixed_scalerOverflow last overflows
  have hmem : ∀ q ∈ [last, overflows], q ∈ (Kind.scalerOverflow last overflows).memory :=
    fun q hq => hq
  obtain rfl := eq_of_resting h.spec.1 hfixed
  obtain ⟨_, _, hp, ho, hlast, hover, hlen⟩ := h.spec.2.shaped
  cases hp
  cases ho
  have hil : i < last.length := by omega
  have hiv : i < overflows.length := by omega
  refine h.memory_eq hfixed (fun s => (s.get last i, s.get overflows i))
    (fun s t hsame => ?_) (fun f hr => ?_) fun f hr => ?_
  · rw [hsame.get_eq ⟨last, hmem last (by simp), Nat.le_add_right _ _, Nat.add_lt_add_left hil _⟩,
      hsame.get_eq ⟨overflows, hmem overflows (by simp), Nat.le_add_right _ _,
        Nat.add_lt_add_left hiv _⟩]
  · have hapart : last.Apart overflows := by simpa [Kind.memory] using hr.memory_apart
    have hfit : ∀ q ∈ [last, overflows], q.stop ≤ f.store.slots := fun q hq =>
      hr.fits _ (List.mem_append_right _ (InRange.memory_mem_owned (hmem q hq)))
    refine Prod.ext ?_ ?_
    · have hkept := Store.agree_fill (f.store.invalidate last) (P := (· ∈ last)) (p := overflows)
        Value.zero fun k hk hl => hapart k hl hk
      refine (hkept.get_eq ⟨Nat.le_add_right _ _, Nat.add_lt_add_left hil _⟩).symm.trans ?_
      exact f.store.get_fill Value.invalid hil (hfit last (by simp))
    · refine Store.get_fill _ Value.zero hiv ?_
      rw [Store.invalidate, Store.slots_fill]
      exact hfit overflows (by simp)
  · obtain ⟨-, hcount, hkept⟩ := hr.get_scalerOverflow hi
    rw [getD_inputValues rfl (hlen ▸ hi), hcount, hkept]
    rfl

/-- An open step that finds a valid reading puts the count behind it into the output. -/
theorem Course.get_unwrapped {limit : Nat} {counts : List Nat}
    (h : Course ⟨[p], [o], gate, .scalerOverflow last overflows⟩ ms
      ⟨[p], [o], gate, .scalerOverflow last overflows⟩ f.store)
    (hi : i < o.length) (hpos : 0 < limit) (hroom : limit < 2 ^ 53)
    (hupper : (f.store.get p.upper i).Denotes limit)
    (hwraps : Wraps limit counts (readings i ms ++ [f.store.get p.data i])) :
    (compute ⟨[p], [o], gate, .scalerOverflow last overflows⟩ f).2.store.get o.data i =
      if (f.store.get p.data i).isValid then Value.ofNat (counts.getLast?.getD 0)
        else Value.invalid := by
  rw [(h.spec.2.get_scalerOverflow hi).1]
  change Element.unwrapped _ _ _ = _
  cases hv : (f.store.get p.data i).isValid with
  | false => simp [Element.unwrapped, hv]
  | true =>
    obtain ⟨front, t, rfl, hfront, hshown, hadvances⟩ := hwraps.of_valid hv
    have hexact := hwraps.exact t (by simp)
    have hkept := hfront.keeps
    rw [← h.counts hi] at hkept
    have hcount := Element.overflows_of_keeps hkept hshown hadvances hexact
    rw [hcount, Element.unwrapped_eq hpos hupper hroom hshown hexact, List.getLast?_concat]
    rfl

end Operator

namespace Graph

/-- In every run, behind a limit that its input wraps around at, an unwrapping operator shows the
true count whenever it finds a valid reading, and nothing valid else. -/
theorem scalerOverflow_unwraps (g : Graph) (hg : g.Begun) (since : List RunCall)
    (hsince : .beginRun ∉ since) (event place : Nat) (op : Operator) (last overflows : Span)
    (hop : (since.foldl RunCall.apply g).occupant? event place = some op)
    (hkind : op.kind = .scalerOverflow last overflows) (ms ticks : List Moment) (isOpen : Bool)
    (ins : List (List Value)) (hticks : ∀ m ∈ ticks, m = .tick)
    (hmoments : moments event place g since = ms ++ .step isOpen ins :: ticks)
    (o : Pipe) (ho : o ∈ op.outputs) (i : Nat) (hi : i < o.length) (limit : Nat) (hpos : 0 < limit)
    (hroom : limit < 2 ^ 53)
    (hupper : ∀ p ∈ op.inputs, (g.arena.store.get p.upper i).Denotes limit) (counts : List Nat)
    (hwraps : Wraps limit counts (Moment.readings i (ms ++ [.step isOpen ins]))) :
    (since.foldl RunCall.apply g).arena.store.get o.data i =
        (if (Moment.step isOpen ins).finds i then Value.ofNat (counts.getLast?.getD 0)
          else Value.invalid) ∧
      (since.foldl RunCall.apply g).arena.store.get overflows i =
        Value.ofNat (counts.getLast?.getD 0 / limit) := by
  have hfixed : op.kind.Fixed := hkind ▸ Kind.fixed_scalerOverflow last overflows
  have hcourse := hg.course_of_fixed hsince hop (by rw [hkind]; rfl) hfixed
  rw [hmoments] at hcourse
  obtain ⟨f, hlast, hopen, hins, hend⟩ := hcourse.last_step_of_fixed hfixed hticks
  have hr := hlast.spec.2
  have hlimits := fun {v} hv {p} => hg.get_limits_step hop hr hend (v := v) hv (p := p) (i := i)
  clear hop
  obtain ⟨inputs, outputs, gate, kind⟩ := op
  obtain rfl : kind = _ := hkind
  obtain ⟨p, q, rfl, rfl, hl, hv, hq⟩ := hr.shaped
  obtain rfl := List.mem_singleton.1 ho
  have heven := (hr.even p (by simp)).2
  constructor
  · rw [← hend.get_eq ⟨o.data, Operator.output_mem_ground ho, Nat.le_add_right _ _,
      Nat.add_lt_add_left hi _⟩]
    cases isOpen with
    | false =>
      rw [Operator.step_closed hopen]
      exact f.store.get_fill Value.invalid hi (hr.output_stop_le ho)
    | true =>
      have hread : (ins.headD []).getD i Value.invalid = f.store.get p.data i := by
        rw [← hins]
        exact Operator.getD_inputValues rfl (by omega)
      rw [Moment.readings_open, hread] at hwraps
      rw [Operator.step, if_pos hopen, hlast.get_unwrapped hi hpos hroom ?_ hwraps, ← hread]
      · rfl
      · rw [hlimits (List.mem_singleton_self p) (by simp [Pipe.limits]) (by omega)]
        exact hupper p (List.mem_singleton_self p)
  · have hkept := hwraps.keeps
    rw [← Moment.readings_ticks hticks, List.append_assoc, List.singleton_append,
      ← hcourse.counts hi] at hkept
    exact hkept.2.2

open Workbench in
/-- A counter of three bits and an operator that unwraps it. -/
def wrapping : Graph :=
  let input : Pipe := ⟨⟨0, 1⟩, ⟨4, 1⟩, ⟨8, 1⟩⟩
  let counter := Source.ofWords [Source.lowBits 3 (by decide)] true
  ((after 4096 .batched [.makeSource counter, .makeOperator (.scalerOverflow input), .addSource 0 0,
    .addOperator 0 0 none]).plan.build .fresh).beginRun

/-- Four events, the third one without a word. -/
def wrappingRun : List RunCall :=
  [[6], [1], [], [0]].flatMap fun words =>
    [.during (.beginEvent 0), .during (.feed 0 0 words), .during (.endEvent 0)]

/-- What the operator finds before the last event. -/
def wrappingMoments : List Moment :=
  [.step true [[.ofNat 6]], .step true [[.ofNat 1]], .step true [[.invalid]]]

/-- The counter has wrapped around twice. -/
theorem scalerOverflow_unwraps_wrapping :
    wrapping.Begun ∧ .beginRun ∉ wrappingRun ∧
      moments 0 0 wrapping wrappingRun = wrappingMoments ++ [.step true [[.ofNat 0]]] ∧
      Wraps 8 [6, 9, 16] (Moment.readings 0 (wrappingMoments ++ [.step true [[.ofNat 0]]])) ∧
      ∃ op last overflows, (wrappingRun.foldl RunCall.apply wrapping).occupant? 0 0 = some op ∧
        op.kind = .scalerOverflow last overflows ∧
        (∀ p ∈ op.inputs, (wrapping.arena.store.get p.upper 0).Denotes (8 : ℕ)) ∧
        ∀ o ∈ op.outputs, 0 < o.length →
          (wrappingRun.foldl RunCall.apply wrapping).arena.store.get o.data 0 = .ofNat 16 ∧
          (wrappingRun.foldl RunCall.apply wrapping).arena.store.get overflows 0 = .ofNat 2 := by
  have hg : wrapping.Begun := ⟨_, ⟨4096, .batched, _, .fresh, [], rfl⟩, rfl⟩
  have hsince : .beginRun ∉ wrappingRun := by simp [wrappingRun]
  have hmoments : moments 0 0 wrapping wrappingRun =
    wrappingMoments ++ [.step true [[.ofNat 0]]] := by decide +kernel
  have hshown : (Moment.readings 0 (wrappingMoments ++ [.step true [[.ofNat 0]]])).filter
    Value.isValid = [.ofNat 6, .ofNat 1, .ofNat 0] := by decide +kernel
  have hwraps : Wraps 8 [6, 9, 16]
      (Moment.readings 0 (wrappingMoments ++ [.step true [[.ofNat 0]]])) := by
    refine ⟨?_, by simp [Advances], by simp [Advances], by simp⟩
    rw [hshown]
    exact .cons (Value.denotes_ofNat (n := 6) (by decide)) (.cons
      (Value.denotes_ofNat (n := 1) (by decide)) (.cons (Value.denotes_ofNat (n := 0) (by decide))
        .nil))
  have hparts : ((wrappingRun.foldl RunCall.apply wrapping).occupant? 0 0).map (fun op =>
      (op.inputs.map Pipe.upper, match op.kind with
        | .scalerOverflow .. => true
        | _ => false)) = some ([⟨8, 1⟩], true) := by decide +kernel
  obtain ⟨op, hop, hparts⟩ := Option.map_eq_some_iff.1 hparts
  obtain ⟨hinputs, hkind⟩ := Prod.mk.inj hparts
  obtain ⟨last, overflows, hkind⟩ : ∃ last overflows, op.kind = .scalerOverflow last overflows := by
    obtain ⟨inputs, outputs, gate, kind⟩ := op
    cases kind with
    | scalerOverflow last overflows => exact ⟨last, overflows, rfl⟩
    | _ => cases hkind
  have hlimit : wrapping.arena.store.get ⟨8, 1⟩ 0 = .ofNat 8 := by decide +kernel
  have hupper : ∀ p ∈ op.inputs, (wrapping.arena.store.get p.upper 0).Denotes (8 : ℕ) := by
    intro p hp
    have hmem := List.mem_map_of_mem (f := Pipe.upper) hp
    rw [hinputs] at hmem
    rw [List.mem_singleton.1 hmem, hlimit]
    exact Value.denotes_ofNat (by decide)
  refine ⟨hg, hsince, hmoments, hwraps, op, last, overflows, hop, hkind, hupper,
    fun o ho hlen => ?_⟩
  exact scalerOverflow_unwraps wrapping hg wrappingRun hsince 0 0 op last overflows hop hkind
    wrappingMoments [] true [[.ofNat 0]] (by simp) hmoments o ho 0 hlen 8 (by decide) (by decide)
    hupper [6, 9, 16] hwraps

end Graph

end Readout
