import Readout.Proofs.Graph.Fixed
import Readout.Proofs.Graph.Summaries
import Readout.Proofs.Operator.Extent

/-!
# Extents of aggregates

An aggregate declares the limits of its output from those of its input when it is made. In exact
arithmetic its results lie in the half-open interval between them where `Reduction.Covers` says so
(`aggregate_within`). Elsewhere a result can lie beside its own limits (`aggregate_strays`).
-/
namespace Readout

open Value Reduction

namespace Store

/-- Each element has numbers as limits, and an interval between them. -/
def Ranged (s : Store) (p : Pipe) : Prop :=
  ∀ i < p.length, (s.get p.lower i).isNaN = false ∧ (s.get p.upper i).isNaN = false ∧
    (s.get p.lower i).number < (s.get p.upper i).number

end Store

namespace Reduction

/-- Real numbers at the indices of some elements, the ones that their values stand for. -/
def Denoted (T : Selected ℝ) (S : Selected Value) : Prop :=
  List.Forall₂ (fun t e => t.1 = e.1 ∧ e.2.Denotes (t.2 : ℝ)) T S

theorem Denoted.index_eq {T : Selected ℝ} {S : Selected Value} (h : Denoted T S) :
    T.map Prod.fst = S.map Prod.fst := by
  induction h with
  | nil => rfl
  | cons he _ ih => rw [List.map_cons, List.map_cons, he.1, ih]

theorem Denoted.exists_mem {T : Selected ℝ} {S : Selected Value} (h : Denoted T S) {e : ℕ × ℝ}
    (he : e ∈ T) : ∃ v, (e.1, v) ∈ S ∧ v.Denotes (e.2 : ℝ) := by
  induction h with
  | nil => cases he
  | @cons t x _ _ hx _ ih =>
    rcases List.mem_cons.1 he with rfl | he
    · exact ⟨x.2, hx.1 ▸ List.mem_cons_self, hx.2⟩
    · obtain ⟨v, hv, hd⟩ := ih he
      exact ⟨v, List.mem_cons_of_mem x hv, hd⟩

section Extremes

variable {κ : Type} [LinearOrder κ] {key : Value → κ} {φ : Value → Value → Bool}

/-- A fold that changes to each value with a lower key comes to a value with the least one. -/
theorem foldl_key_le
    (hφ : ∀ v w : Value, v.isNaN = false → w.isNaN = false → (φ v w = true ↔ key v < key w))
    {xs : List Value} {m : Value} (hm : m.isNaN = false) (hnan : ∀ x ∈ xs, x.isNaN = false) :
    key (xs.foldl (fun m x => if φ x m then x else m) m) ≤ key m ∧
      ∀ x ∈ xs, key (xs.foldl (fun m x => if φ x m then x else m) m) ≤ key x := by
  induction xs generalizing m with
  | nil => simp
  | cons x xs ih =>
    obtain ⟨hx, hnan⟩ := List.forall_mem_cons.1 hnan
    rw [List.foldl_cons, List.forall_mem_cons]
    by_cases h : φ x m = true
    · obtain ⟨hle, hall⟩ := ih hx hnan
      rw [if_pos h]
      exact ⟨hle.trans ((hφ x m hx hm).1 h).le, hle, hall⟩
    · obtain ⟨hle, hall⟩ := ih hm hnan
      rw [if_neg h]
      rw [hφ x m hx hm, not_lt] at h
      exact ⟨hle, hle.trans h, hall⟩

theorem leastOf_le {m : Value} {xs : List Value} (hm : m.isNaN = false)
    (hnan : ∀ x ∈ xs, x.isNaN = false) : ∀ x ∈ xs, (leastOf m xs).number ≤ x.number :=
  (foldl_key_le (fun v w hv hw => by simp [Scalar.below, below_iff_number, hv, hw]) hm hnan).2

theorem le_greatestOf {m : Value} {xs : List Value} (hm : m.isNaN = false)
    (hnan : ∀ x ∈ xs, x.isNaN = false) : ∀ x ∈ xs, x.number ≤ (greatestOf m xs).number := by
  have hφ : ∀ v w : Value, v.isNaN = false → w.isNaN = false →
      (Scalar.below w v = true ↔ OrderDual.toDual v.number < OrderDual.toDual w.number) :=
    fun v w hv hw => by simp [Scalar.below, below_iff_number, hv, hw]
  exact fun x hx => OrderDual.toDual_le_toDual.1 ((foldl_key_le hφ hm hnan).2 x hx)

end Extremes

end Reduction

namespace Store

variable {s t : Store} {p : Pipe} {S : Selected Value} {T : Selected ℝ}

theorem mem_values {q : Span} {v : Value} (h : v ∈ s.values q) : ∃ i < q.length, s.get q i = v := by
  simpa [values] using h

/-- What counts lies between the least lower and the greatest upper limit. -/
theorem Counts.inside (h : s.Counts p .unbounded S) (hp : p.Even) (hr : s.Ranged p)
    (hT : Denoted T S) : Inside T p.length (leastOf .infinity (s.values p.lower)).number
      (greatestOf .negInfinity (s.values p.upper)).number := by
  have hlower : ∀ v ∈ s.values p.lower, v.isNaN = false := fun v hv => by
    obtain ⟨i, hi, rfl⟩ := mem_values hv
    exact (hr i (hp.1 ▸ hi)).1
  have hupper : ∀ v ∈ s.values p.upper, v.isNaN = false := fun v hv => by
    obtain ⟨i, hi, rfl⟩ := mem_values hv
    exact (hr i (hp.2 ▸ hi)).2.1
  have hleast := leastOf_le (m := .infinity) (by decide) hlower
  have hgreatest := le_greatestOf (m := .negInfinity) (by decide) hupper
  have hsource : ∀ e ∈ T, e.1 < p.length ∧ (s.get p.lower e.1).number ≤ (e.2 : EReal) ∧
      (e.2 : EReal) < (s.get p.upper e.1).number := fun e he => by
    obtain ⟨v, hv, -, hnumber⟩ := hT.exists_mem he
    obtain ⟨hi, -, -, -, -, -, hlow, hhigh⟩ := (h.mem e.1 v).1 hv
    rw [hnumber] at hlow hhigh
    exact ⟨hi, hlow, hhigh⟩
  refine ⟨hT.index_eq ▸ h.ascending, fun e he => (hsource e he).1, fun e he => ?_⟩
  obtain ⟨hi, hlow, hhigh⟩ := hsource e he
  have hmem : ∀ q : Span, e.1 < q.length → s.get q e.1 ∈ s.values q := fun q hq =>
    List.mem_map_of_mem (List.mem_range.2 hq)
  exact ⟨(hleast _ (hmem p.lower (hp.1 ▸ hi))).trans hlow,
    hhigh.trans_le (hgreatest _ (hmem p.upper (hp.2 ▸ hi)))⟩

end Store

/-- A new pipe has the limits that it is filled with. -/
theorem Pipe.get_limits_fillAll {s : Store} {v lower upper : Value} {i : Nat} (p : Pipe)
    (hp : p.Even) (ha : p.spans.Pairwise Span.Apart) (hfit : ∀ q ∈ p.spans, q.stop ≤ s.slots)
    (hi : i < p.length) :
    (s.fillAll [(p.data, v), (p.lower, lower), (p.upper, upper)]).get p.lower i = lower ∧
      (s.fillAll [(p.data, v), (p.lower, lower), (p.upper, upper)]).get p.upper i = upper := by
  have ha : ([(p.data, v), (p.lower, lower), (p.upper, upper)].map Prod.fst).Pairwise Span.Apart :=
    ha
  exact ⟨Store.get_fillAll ha (by simp) (hp.1 ▸ hi) (hfit _ p.lower_mem_spans),
    Store.get_fillAll ha (by simp) (hp.2 ▸ hi) (hfit _ p.upper_mem_spans)⟩

namespace Operator

section Lives

variable {capacity : Nat} {strategy : FillStrategy} {calls : List BuildCall} {input o : Pipe}
  {r : Reduction} {w : Window Value} {op : Operator} {a : Arena} {s : Store} {gate : Option Nat}
  (ho : (Workbench.after capacity strategy calls).Offers [input])
  (hmake : (Recipe.aggregate input r w).make (Workbench.after capacity strategy calls).plan.arena =
    (.ok (make (.aggregate r w) [input] [o]), a))
  (hlives : Lives ⟨[input], [o], gate, .aggregate r w⟩ a.store op s)

include ho hmake hlives

/-- The limits of the output stay what the maker declares. -/
theorem limits_of_lives : (s.get o.lower 0, s.get o.upper 0) =
    aggregateLimits (Workbench.after capacity strategy calls).plan.arena.store input r := by
  have hsound := (Workbench.sound_after capacity strategy calls).makeOperator
    (r := .aggregate input r w) ho hmake
  have hrange : InRange a.store.slots (make (.aggregate r w) [input] [o]) :=
    hsound.inRange_operator List.mem_cons_self fun n hn => by cases hn
  obtain ⟨q, hq, hstore⟩ := aggregate_ok hmake
  obtain rfl : o = q := by simpa [make] using hq
  obtain ⟨_, _, -, hout, hlen⟩ := hrange.shaped
  cases hout
  have heven : o.Even := hrange.even o (by simp [make])
  have hone : ∀ p ∈ o.limits, 0 < p.length := by
    simp [Pipe.limits, heven.1, heven.2, hlen]
  have hkept := (hlives.fixed hrange.apart).2
  have hget : ∀ p ∈ o.limits, s.get p 0 = a.store.get p 0 := fun p hp => by
    refine (hkept.get_eq ⟨p, ?_, Nat.le_refl _, Nat.add_lt_add_left (hone p hp) _⟩).symm
    simpa [fixed, Kind.constants] using hp
  have hfit : ∀ p ∈ o.spans,
      p.stop ≤ (Workbench.after capacity strategy calls).plan.arena.store.slots := fun p hp => by
    have hstop := hrange.fits p (by simp [reach, owned, make, hp])
    rwa [hstore, Store.slots_fillAll] at hstop
  have hapart : o.spans.Pairwise Span.Apart := by
    simpa [owned, make, Kind.memory, Kind.bins] using hrange.apart
  rw [hget o.lower (by simp [Pipe.limits]), hget o.upper (by simp [Pipe.limits]), hstore]
  obtain ⟨hlower, hupper⟩ := o.get_limits_fillAll (i := 0) heven hapart hfit (by omega)
  exact Prod.ext hlower hupper

end Lives

end Operator

/-- Where the limits of an aggregate hold in exact arithmetic. The declared ones are computed by the
same formulas as the exact ones. -/
theorem Operator.aggregate_within (capacity : Nat) (strategy : FillStrategy)
    (calls : List BuildCall) {input : Pipe} {r : Reduction} {made op : Operator} {a : Arena} {f : Frame} (gate : Option Nat)
    (ho : (Workbench.after capacity strategy calls).Offers [input])
    (hmake : (Recipe.aggregate input r .unbounded).make
      (Workbench.after capacity strategy calls).plan.arena = (.ok made, a))
    (hlives : Lives { made with gate := gate } a.store op f.store)
    (hopen : op.isOpen f.bits = true)
    (hkept : ∀ p ∈ input.limits, f.store.values p =
      (Workbench.after capacity strategy calls).plan.arena.store.values p)
    (hranged : f.store.Ranged input) :
    ∃ (o : Pipe) (L U : Value) (S : Selected Value), op.outputs = [o] ∧
      L = leastOf .infinity (f.store.values input.lower) ∧
      U = greatestOf .negInfinity (f.store.values input.upper) ∧
      (f.store.get o.lower 0, f.store.get o.upper 0) = r.limits input.length L U ∧
      f.store.Counts input .unbounded S ∧
      (op.step f).2.store.get o.data 0 = (r.apply S).getD Value.invalid ∧
      ∀ T : Selected ℝ, Denoted T S → r.Covers input.length S.length L.number U.number →
        ∀ x ∈ r.apply T, (r.limits input.length L.number U.number).1 ≤ (x : EReal) ∧
          (x : EReal) < (r.limits input.length L.number U.number).2 := by
  obtain ⟨o, rfl, rfl, hrange, -⟩ := aggregate_lives ho hmake hlives
  have heven := hrange.even input (by simp)
  have hS := f.store.counts_selected heven .unbounded
  refine ⟨o, _, _, _, rfl, rfl, rfl, ?_, hS, get_step_aggregate hrange hopen hS,
    fun T hT hc x hx => ?_⟩
  · rw [limits_of_lives ho hmake hlives, aggregateLimits, hkept input.lower (by simp [Pipe.limits]),
      hkept input.upper (by simp [Pipe.limits])]
  · exact apply_within (hS.inside heven hranged hT) (hT.length_eq ▸ hc) hx

section Sample

theorem Operator.aggregate_within_sum : (tripleSum.step tripleFrame).2.store.get ⟨12, 1⟩ 0 = .two ∧
    (0 : EReal) ≤ (2 : ℝ) ∧ ((2 : ℝ) : EReal) < (3 : ℕ) * (2 : ℕ) := by
  have hbelow : ∀ i < triplePipe.length, Value.below (tripleFrame.store.get triplePipe.lower i)
      (tripleFrame.store.get triplePipe.upper i) = true := by
    decide +kernel
  obtain ⟨o, L, U, S, ho, hL, hU, -, hS, hresult, hwithin⟩ := Operator.aggregate_within 4096 .direct
    tripleCalls none (by decide +kernel) tripleSum_make tripleSum_lives rfl (by decide +kernel)
    fun i hi => below_iff_number.1 (hbelow i hi)
  obtain rfl : (⟨⟨12, 1⟩, ⟨16, 1⟩, ⟨20, 1⟩⟩ : Pipe) = o := List.singleton_inj.1 ho
  obtain rfl : S = [(0, .one), (2, .one)] := by
    rw [hS.unique (tripleFrame.store.counts_selected (by decide) .unbounded)]
    decide +kernel
  obtain rfl : L = .ofNat 0 := hL.trans (by decide +kernel)
  obtain rfl : U = .ofNat 2 := hU.trans (by decide +kernel)
  have hunit : Value.ofNat 1 = .one := by decide +kernel
  have hone : Value.one.Denotes (1 : ℝ) := by simpa [hunit] using denotes_ofNat (n := 1) (by decide)
  have hdenoted : Denoted [(0, 1), (2, 1)] [(0, Value.one), (2, .one)] :=
    .cons ⟨rfl, hone⟩ (.cons ⟨rfl, hone⟩ .nil)
  have hlower : (Value.ofNat 0).number = 0 := by simpa using number_ofNat (n := 0) (by decide)
  have htwo : (2 : ℝ) ∈ Reduction.sum.apply [(0, (1 : ℝ)), (2, 1)] := by
    simp [Reduction.apply, total_real, one_add_one_eq_two]
  have hbounds := hwithin _ hdenoted (.inl hlower.ge) 2 htwo
  simp only [Reduction.limits, hlower, number_ofNat (n := 2) (by decide)] at hbounds
  exact ⟨hresult.trans (by decide +kernel), hbounds⟩

/-- Kinds of aggregates with limits and contents of an input. -/
def strays : List (Reduction × Value × Value × List Value) :=
  [(.multiplicity, .zero, .two, [.one]),
    (.sum, -.one, .zero, [-.one, -.one]),
    (.sigma, .zero, .ofNat 16, [.zero, .ofNat 15]),
    (.meanX, -.one, .two, [.one, -(.one / .two)]),
    (.sigmaX, .zero, .two, [.one, .zero, .zero, .zero, .zero, .one])]

/-- The limits of an aggregate over a new pipe, and the result of a step over some contents. -/
def outcome? (r : Reduction) (lower upper : Value) (vs : List Value) :
    Option (Window Value × Value) :=
  let w := Workbench.after 4096 .direct [.pushPipe vs.length lower upper]
  match w.pipes with
  | [p] =>
    match (Recipe.aggregate p r .unbounded).make w.plan.arena with
    | (.ok op, a) =>
      let f := (op.step ⟨a.store.assign p.data vs, ⟨[]⟩, .new .direct 0, .fresh⟩).2
      let o := op.firstOutput
      some (⟨f.store.get o.lower 0, f.store.get o.upper 0⟩, f.store.get o.data 0)
    | _ => none
  | _ => none

/-- None of these results lies in its own limits, although all contents do. -/
theorem Operator.aggregate_strays : strays.all (fun (r, lower, upper, vs) =>
    vs.all (Window.mk lower upper).contains &&
      (outcome? r lower upper vs).any fun (w, v) => v.isValid && !w.contains v) = true := by
  decide +kernel

end Sample

end Readout
