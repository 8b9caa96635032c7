import Readout.Proofs.Graph.Propagation
import Readout.Proofs.Value.Order

/-!
# Summaries

An aggregate makes one value of the elements that its window selects. Which elements these are, and
what each kind of aggregate makes of them, is said without the folds that compute it: an extreme is
attained, by no lower index than the first one, and sums run from left to right. An open step puts
this value into the output, in every state that the operator comes to (`aggregate_step`).
-/
namespace Readout

open Value

/-- The value lies in the half-open interval between two others, none of them a NaN. -/
def Value.Between (v lower upper : Value) : Prop :=
  v.isNaN = false ∧ lower.isNaN = false ∧ upper.isNaN = false ∧
    lower.number ≤ v.number ∧ v.number < upper.number

theorem Window.contains_iff (w : Window Value) (v : Value) :
    w.contains v = true ↔ v.Between w.min w.max := by
  rw [contains, Bool.and_eq_true]
  refine (and_congr atMost_iff_number below_iff_number).trans ?_
  rw [Value.Between]
  tauto

namespace Store

/-- The elements that count are listed by index: the valid ones in the window, where a bound that is
a NaN stands for the limit of the element. -/
structure Counts (s : Store) (p : Pipe) (w : Window Value) (S : Reduction.Selected Value) :
    Prop where
  ascending : (S.map Prod.fst).Pairwise (· < ·)
  mem : ∀ i v, (i, v) ∈ S ↔ i < p.length ∧ v = s.get p.data i ∧ v.isValid = true ∧
    v.Between (if w.min.isNaN then s.get p.lower i else w.min)
      (if w.max.isNaN then s.get p.upper i else w.max)

theorem counts_selected (s : Store) {p : Pipe} (hp : p.Even) (w : Window Value) :
    s.Counts p w (Kind.selected w (s.values p.data) (s.values p.lower) (s.values p.upper)) := by
  rw [Kind.selected_eq_range w s hp]
  constructor
  · rw [List.map_map]
    exact List.pairwise_map.2 (List.pairwise_lt_range.filter _)
  · intro i v
    simp only [List.mem_map, List.mem_filter, List.mem_range, Prod.mk.injEq, Window.admits,
      Bool.and_eq_true, Window.contains_iff]
    constructor
    · rintro ⟨j, ⟨hj, hvalid, hbetween⟩, rfl, rfl⟩
      exact ⟨hj, rfl, hvalid, hbetween⟩
    · rintro ⟨hi, rfl, hvalid, hbetween⟩
      exact ⟨i, ⟨hi, hvalid, hbetween⟩, rfl, rfl⟩

variable {s t : Store} {p : Pipe} {w : Window Value} {S T : Reduction.Selected Value}

theorem Counts.unique (h : s.Counts p w S) (h' : s.Counts p w T) : S = T := by
  have hmem : ∀ e, e ∈ S ↔ e ∈ T := fun (i, v) => (h.mem i v).trans (h'.mem i v).symm
  have hnodup : ∀ {U}, s.Counts p w U → U.Nodup := fun hU =>
    (List.pairwise_map.1 hU.ascending).imp fun hlt heq => hlt.ne (congrArg Prod.fst heq)
  have hperm := (List.perm_ext_iff_of_nodup (hnodup h) (hnodup h')).2 hmem
  refine hperm.eq_of_pairwise (fun x y hx hy hxy hyx => ?_) (List.pairwise_map.1 h.ascending)
    (List.pairwise_map.1 h'.ascending)
  exact absurd hyx hxy.asymm

theorem Counts.index_lt (h : s.Counts p w S) {e : ℕ × Value} (he : e ∈ S) : e.1 < p.length :=
  ((h.mem e.1 e.2).1 he).1

theorem Counts.isNaN_eq (h : s.Counts p w S) {e : ℕ × Value} (he : e ∈ S) : e.2.isNaN = false :=
  ((h.mem e.1 e.2).1 he).2.2.2.1

theorem Counts.length_le (h : s.Counts p w S) : S.length ≤ p.length := by
  have hrange : S.map Prod.fst ⊆ List.range p.length := fun i hi => by
    obtain ⟨e, he, rfl⟩ := List.mem_map.1 hi
    exact List.mem_range.2 (h.index_lt he)
  have hnodup : (S.map Prod.fst).Nodup := h.ascending.imp Nat.ne_of_lt
  simpa using (List.subperm_of_subset hnodup hrange).length_le

end Store

namespace Reduction

section Extremes

variable {κ : Type} [LinearOrder κ]

/-- The first of the elements with the least key. -/
def First (key : Value → κ) (S : Selected Value) (e : ℕ × Value) : Prop :=
  e ∈ S ∧ ∀ x ∈ S, key e.2 ≤ key x.2 ∧ (key x.2 = key e.2 → e.1 ≤ x.1)

/-- A fold that prefers a lower key comes to the first of the elements with the least one. -/
theorem exists_first_foldl {key : Value → κ} {φ : Value → Value → Bool} {S : Selected Value}
    {b : ℕ × Value} (hnan : ∀ e ∈ b :: S, e.2.isNaN = false)
    (hφ : ∀ v w : Value, v.isNaN = false → w.isNaN = false → (φ v w = true ↔ key v < key w))
    (hs : ((b :: S).map Prod.fst).Pairwise (· < ·)) :
    ∃ e, S.foldl (better φ) (some b) = some e ∧ First key (b :: S) e := by
  induction S generalizing b with
  | nil => exact ⟨b, rfl, List.mem_cons_self, by simp⟩
  | cons x S ih =>
    obtain ⟨hb, hx⟩ := List.forall_mem_cons.1 hnan
    have hbx := (List.pairwise_cons.1 hs).1 x.1 (by simp)
    rw [List.foldl_cons, better]
    split
    · next hlt =>
      rw [hφ _ _ (hx x List.mem_cons_self) hb] at hlt
      obtain ⟨e, he, hmem, hleast⟩ := ih hx (List.pairwise_cons.1 hs).2
      have hex := (hleast x List.mem_cons_self).1
      refine ⟨e, he, List.mem_cons_of_mem b hmem, List.forall_mem_cons.2 ⟨?_, hleast⟩⟩
      exact ⟨(hex.trans_lt hlt).le, fun heq => absurd heq (hex.trans_lt hlt).ne'⟩
    · next hle =>
      rw [hφ _ _ (hx x List.mem_cons_self) hb, not_lt] at hle
      have hskip : ((b :: S).map Prod.fst).Pairwise (· < ·) :=
        hs.sublist (((List.sublist_cons_self x S).cons_cons b).map Prod.fst)
      have hrest : ∀ e ∈ b :: S, e.2.isNaN = false :=
        List.forall_mem_cons.2 ⟨hb, (List.forall_mem_cons.1 hx).2⟩
      obtain ⟨e, he, hmem, hleast⟩ := ih hrest hskip
      obtain ⟨hfirst, hleast⟩ := List.forall_mem_cons.1 hleast
      refine ⟨e, he, ?_, List.forall_mem_cons.2 ⟨hfirst, List.forall_mem_cons.2 ⟨?_, hleast⟩⟩⟩
      · rcases List.mem_cons.1 hmem with rfl | hmem
        · exact List.mem_cons_self
        · exact List.mem_cons_of_mem b (List.mem_cons_of_mem x hmem)
      · refine ⟨hfirst.1.trans hle, fun heq => ?_⟩
        have hkey : key b.2 = key e.2 := le_antisymm (heq ▸ hle) hfirst.1
        exact (hfirst.2 hkey).trans hbx.le

theorem exists_first {key : Value → κ} {φ : Value → Value → Bool} {S : Selected Value}
    (hnan : ∀ e ∈ S, e.2.isNaN = false) (hs : (S.map Prod.fst).Pairwise (· < ·)) (hS : S ≠ [])
    (hφ : ∀ v w : Value, v.isNaN = false → w.isNaN = false → (φ v w = true ↔ key v < key w)) :
    ∃ e, S.foldl (better φ) none = some e ∧ First key S e := by
  cases S with
  | nil => exact absurd rfl hS
  | cons b S => exact exists_first_foldl hnan hφ hs

end Extremes

section Yields

variable {r : Reduction} {S : Selected Value} {v : Value}

def Lowest (S : Selected Value) (e : ℕ × Value) : Prop := First number S e

def Highest (S : Selected Value) (e : ℕ × Value) : Prop :=
  First (fun v => OrderDual.toDual v.number) S e

/-- The sum of a list from left to right. -/
def sumFrom (start : Value) (vs : List Value) : Value := vs.foldl (· + ·) start

def valueSum (S : Selected Value) : Value := sumFrom Value.zero (S.map Prod.snd)

def indexSum (S : Selected Value) : Value :=
  sumFrom Value.zero (S.map fun e => Value.ofNat e.1 * e.2)

/-- A reduction of the elements has a result. -/
def Defined (r : Reduction) (S : Selected Value) : Prop :=
  r = multiplicity ∨ S ≠ [] ∧ (r = meanX ∨ r = sigmaX → ¬ (valueSum S).Denotes 0)

/-- What a reduction makes of the elements where it has a result. -/
def Yields (r : Reduction) (S : Selected Value) (v : Value) : Prop :=
  match r with
  | multiplicity => v.Denotes S.length
  | min => ∃ e, Lowest S e ∧ v = e.2
  | max => ∃ e, Highest S e ∧ v = e.2
  | minX => ∃ e, Lowest S e ∧ v.Denotes e.1
  | maxX => ∃ e, Highest S e ∧ v.Denotes e.1
  | sum => v = valueSum S
  | mean => v = valueSum S / Value.ofNat S.length
  | meanX => v = indexSum S / valueSum S
  | sigma => ∃ m, m = valueSum S / Value.ofNat S.length ∧ v = Value.sqrt
      (sumFrom (-Value.zero) (S.map fun e => (e.2 - m) * (e.2 - m)) / Value.ofNat S.length)
  | sigmaX => ∃ m, m = indexSum S / valueSum S ∧ v = Value.sqrt (sumFrom (-Value.zero)
      (S.map fun e => e.2 * (Value.ofNat e.1 - m) * (Value.ofNat e.1 - m)) / valueSum S)

theorem total_eq (S : Selected Value) : total S = valueSum S := (List.foldl_map ..).symm

theorem moment_eq (S : Selected Value) : moment S = indexSum S := (List.foldl_map ..).symm

theorem squares_eq (S : Selected Value) (m : Value) : squares S m =
    sumFrom (-Value.zero) (S.map fun e => (e.2 - m) * (e.2 - m)) := (List.foldl_map ..).symm

theorem weightedSquares_eq (S : Selected Value) (m : Value) : weightedSquares S m =
    sumFrom (-Value.zero) (S.map fun e => e.2 * (Value.ofNat e.1 - m) * (Value.ofNat e.1 - m)) :=
  (List.foldl_map ..).symm

theorem meanPosition_eq {m : Value} (h : meanPosition? S = some m) :
    m = indexSum S / valueSum S := by
  rw [meanPosition?] at h
  split at h
  · cases h
  · rw [← total_eq, ← moment_eq]
    exact (Option.some.inj h).symm

theorem defined_iff (r : Reduction) (S : Selected Value) : r.Defined S ↔ r.apply S ≠ none := by
  rw [ne_eq, apply_eq_none_iff, total_eq, isZero_iff_denotes, Defined]
  tauto

variable (hnan : ∀ e ∈ S, e.2.isNaN = false) (hs : (S.map Prod.fst).Pairwise (· < ·))

include hnan hs

theorem exists_lowest (hS : S ≠ []) : ∃ e, lowest? S = some e ∧ Lowest S e := by
  rw [lowest?_eq]
  exact exists_first hnan hs hS fun v w hv hw => by simp [Scalar.below, below_iff_number, hv, hw]

theorem exists_highest (hS : S ≠ []) : ∃ e, highest? S = some e ∧ Highest S e := by
  rw [highest?_eq]
  exact exists_first hnan hs hS fun v w hv hw => by simp [Scalar.below, below_iff_number, hv, hw]

theorem yields_apply (hlen : S.length < 2 ^ 53) (hindex : ∀ e ∈ S, e.1 < 2 ^ 53)
    (hv : r.apply S = some v) : r.Yields S v := by
  by_cases hr : r = multiplicity
  · subst hr
    obtain rfl : Value.ofNat S.length = v := Option.some.inj hv
    exact denotes_ofNat hlen
  · have hS : S ≠ [] := fun hS => by
      rw [(apply_eq_none_iff r S).2 ⟨hr, .inl hS⟩] at hv
      cases hv
    obtain ⟨l, hl, hlow⟩ := exists_lowest hnan hs hS
    obtain ⟨h, hh, hhigh⟩ := exists_highest hnan hs hS
    cases r <;> simp [apply, hS, hl, hh] at hv
    case multiplicity => exact absurd rfl hr
    case sum => exact hv.symm.trans (total_eq S)
    case mean => exact hv.symm.trans (congrArg (· / Value.ofNat S.length) (total_eq S))
    case sigma => exact ⟨meanOf S, congrArg (· / Value.ofNat S.length) (total_eq S), by
        rw [← squares_eq, ← hv]; rfl⟩
    case min => exact ⟨l, hlow, hv.symm⟩
    case max => exact ⟨h, hhigh, hv.symm⟩
    case minX => exact ⟨l, hlow, hv ▸ denotes_ofNat (hindex l hlow.1)⟩
    case maxX => exact ⟨h, hhigh, hv ▸ denotes_ofNat (hindex h hhigh.1)⟩
    case meanX => exact meanPosition_eq hv
    case sigmaX =>
      obtain ⟨m, hm, rfl⟩ := hv
      exact ⟨m, meanPosition_eq hm, by rw [← weightedSquares_eq, ← total_eq]; rfl⟩

end Yields

end Reduction

namespace Operator

/-- What an aggregate declares, from the limits of all elements. -/
def aggregateLimits (s : Store) (input : Pipe) (r : Reduction) : Value × Value :=
  r.limits input.length (Reduction.leastOf .infinity (s.values input.lower))
    (Reduction.greatestOf .negInfinity (s.values input.upper))

theorem aggregate_ok {input : Pipe} {r : Reduction} {w : Window Value} {op : Operator} {a b : Arena}
    (h : aggregate input r w a = (.ok op, b)) : ∃ o, op = make (.aggregate r w) [input] [o] ∧
      b.store = a.store.fillAll [(o.data, .invalid), (o.lower, (aggregateLimits a.store input r).1),
        (o.upper, (aggregateLimits a.store input r).2)] := by
  obtain ⟨lower, _, hlower, h⟩ := exists_of_bind_apply_eq h
  obtain ⟨upper, _, hupper, h⟩ := exists_of_bind_apply_eq h
  cases hlower
  cases hupper
  obtain ⟨o, _, ho, h⟩ := exists_of_bind_apply_eq h
  cases h
  exact ⟨o, rfl, Pipe.push_store ho⟩

theorem eq_of_resting_aggregate {op : Operator} {inputs outputs : List Pipe} {gate : Option Nat}
    {r : Reduction} {w : Window Value}
    (h : op.resting = resting ⟨inputs, outputs, gate, .aggregate r w⟩) :
    op = ⟨inputs, outputs, gate, .aggregate r w⟩ := by
  obtain ⟨ins, outs, g, kind⟩ := op
  cases kind <;> simp_all [resting, Kind.resting]

/-- What an open step of an aggregate puts into the output. -/
theorem get_step_aggregate {input o : Pipe} {gate : Option Nat} {r : Reduction} {w : Window Value}
    {f : Frame} (hrange : InRange f.store.slots ⟨[input], [o], gate, .aggregate r w⟩)
    (hopen : isOpen ⟨[input], [o], gate, .aggregate r w⟩ f.bits = true)
    {S : Reduction.Selected Value} (hS : f.store.Counts input w S) :
    (step ⟨[input], [o], gate, .aggregate r w⟩ f).2.store.get o.data 0 =
      (r.apply S).getD Value.invalid := by
  obtain ⟨_, _, hi, ho, hlen⟩ := hrange.shaped
  cases hi
  cases ho
  rw [step, if_pos hopen, hrange.get_compute rfl (List.mem_singleton_self o) (by omega)]
  have hselected := f.store.counts_selected (hrange.even input (by simp)) w
  rw [hS.unique hselected]
  rfl

section Lives

variable {capacity : Nat} {strategy : FillStrategy} {calls : List BuildCall} {input : Pipe}
  {r : Reduction} {w : Window Value} {made op : Operator} {a : Arena} {s : Store}
  {gate : Option Nat}
  (ho : (Workbench.after capacity strategy calls).Offers [input])
  (hmake : (Recipe.aggregate input r w).make (Workbench.after capacity strategy calls).plan.arena =
    (.ok made, a))
  (hlives : Lives { made with gate := gate } a.store op s)

include ho hmake hlives

/-- An aggregate stays what it is, in a store that can be addressed. -/
theorem aggregate_lives : ∃ o, made = make (.aggregate r w) [input] [o] ∧
    op = ⟨[input], [o], gate, .aggregate r w⟩ ∧ InRange s.slots op ∧ s.slots < Word.size 32 := by
  have hsound := (Workbench.sound_after capacity strategy calls).makeOperator
    (r := .aggregate input r w) ho hmake
  have honward := (Recipe.takes_make (.aggregate input r w)).onward
    (Workbench.after capacity strategy calls).plan.arena
  have hroom := Workbench.slots_after_lt capacity strategy calls
  rw [hmake] at honward
  obtain ⟨o, rfl, -⟩ := aggregate_ok hmake
  have hrange : InRange a.store.slots (make (.aggregate r w) [input] [o]) :=
    hsound.inRange_operator List.mem_cons_self fun n hn => by cases hn
  have hseated : InRange a.store.slots ⟨[input], [o], gate, .aggregate r w⟩ :=
    ⟨hrange.shaped, hrange.even, hrange.fits, hrange.apart, hrange.alone, hrange.exact⟩
  obtain ⟨hrest, hslots, -⟩ := hlives.spec hseated fun p hp => by cases hp
  obtain rfl : op = ⟨[input], [o], gate, .aggregate r w⟩ := eq_of_resting_aggregate hrest
  exact ⟨o, rfl, rfl, hslots ▸ hseated, hslots ▸ honward.slots_eq ▸ hroom⟩

end Lives

end Operator

/-- In every state that an aggregate comes to, an open step puts into the output what the aggregate
makes of the elements that count, and nothing else has an influence on it. -/
theorem Operator.aggregate_step (capacity : Nat) (strategy : FillStrategy) (calls : List BuildCall)
    {input : Pipe} {r : Reduction} {w : Window Value} {made op : Operator} {a : Arena} {f : Frame}
    (gate : Option Nat) (ho : (Workbench.after capacity strategy calls).Offers [input])
    (hmake : (Recipe.aggregate input r w).make
      (Workbench.after capacity strategy calls).plan.arena = (.ok made, a))
    (hlives : Lives { made with gate := gate } a.store op f.store)
    (hopen : op.isOpen f.bits = true) :
    ∃ o, op.outputs = [o] ∧ ∃ S, f.store.Counts input w S ∧
      (((op.step f).2.store.get o.data 0).isValid = true ↔ r.Defined S) ∧
      (r.Defined S → r.Yields S ((op.step f).2.store.get o.data 0)) ∧
      ∀ g : Frame, g.store.slots = f.store.slots → op.isOpen g.bits = true →
        g.store.Counts input w S →
          (op.step g).2.store.get o.data 0 = (op.step f).2.store.get o.data 0 := by
  obtain ⟨o, -, rfl, hrange, hslots⟩ := aggregate_lives ho hmake hlives
  have hS := f.store.counts_selected (hrange.even input (by simp)) w
  have hvalid := Kind.allValid_selected w (f.store.values input.data) (f.store.values input.lower)
    (f.store.values input.upper)
  have hroom : input.length < 2 ^ 53 := by
    have hstop := hrange.fits input.data (by simp [reach, Pipe.spans])
    have hword : Word.size 32 = 2 ^ 32 := rfl
    rw [Span.stop] at hstop
    change input.data.length < _
    omega
  have hresult := get_step_aggregate hrange hopen hS
  refine ⟨o, rfl, _, hS, ?_, fun hdef => ?_, fun g hg hopen' hS' => ?_⟩
  · rw [hresult, Reduction.defined_iff]
    cases hv : r.apply (Kind.selected w (f.store.values input.data) (f.store.values input.lower)
      (f.store.values input.upper)) with
    | none => simp; rfl
    | some v => simp [Reduction.isValid_apply hvalid hv]
  · obtain ⟨v, hv⟩ := Option.ne_none_iff_exists'.1 ((Reduction.defined_iff _ _).1 hdef)
    rw [hresult, hv]
    exact Reduction.yields_apply (fun e he => hS.isNaN_eq he) hS.ascending
      (hS.length_le.trans_lt hroom) (fun e he => (hS.index_lt he).trans hroom) hv
  · rw [hresult, get_step_aggregate (hg ▸ hrange) hopen' hS']

section Sample

/-- One pipe of three elements. -/
def tripleCalls : List BuildCall := [.pushPipe 3 .zero .two]

def triplePipe : Pipe := ⟨⟨0, 3⟩, ⟨4, 3⟩, ⟨8, 3⟩⟩

def tripleSum : Operator :=
  .make (.aggregate .sum .unbounded) [triplePipe] [⟨⟨12, 1⟩, ⟨16, 1⟩, ⟨20, 1⟩⟩]

def tripleArena : Arena :=
  ((Recipe.aggregate triplePipe .sum .unbounded).make
    (Workbench.after 4096 .direct tripleCalls).plan.arena).2

def tripleFrame : Frame :=
  ⟨tripleArena.store.assign triplePipe.data [.one, .two, .one], ⟨[]⟩, .new .direct 0, .fresh⟩

theorem tripleSum_make : (Recipe.aggregate triplePipe .sum .unbounded).make
    (Workbench.after 4096 .direct tripleCalls).plan.arena = (.ok tripleSum, tripleArena) := rfl

theorem tripleSum_lives :
    Operator.Lives { tripleSum with gate := none } tripleArena.store tripleSum
      tripleFrame.store := by
  refine .others .made (tripleArena.store.agree_assign _ ?_)
  have hapart : ∀ p ∈ tripleSum.owned, triplePipe.data.stop ≤ p.offset := by decide
  rintro i hi ⟨p, hp, hip⟩
  exact Nat.lt_irrefl _ (Nat.lt_of_lt_of_le hi.2 (Nat.le_trans (hapart p hp) hip.1))

/-- The element at its own upper limit does not count. -/
theorem Operator.aggregate_step_sum :
    (tripleSum.step tripleFrame).2.store.get ⟨12, 1⟩ 0 = .two := by
  obtain ⟨o, ho, S, hS, -, hyields, -⟩ := Operator.aggregate_step 4096 .direct tripleCalls none
    (by decide +kernel) tripleSum_make tripleSum_lives rfl
  obtain rfl : (⟨⟨12, 1⟩, ⟨16, 1⟩, ⟨20, 1⟩⟩ : Pipe) = o := List.singleton_inj.1 ho
  obtain rfl : S = [(0, .one), (2, .one)] := by
    rw [hS.unique (tripleFrame.store.counts_selected (by decide) .unbounded)]
    decide +kernel
  have hsum : Reduction.valueSum [(0, .one), (2, .one)] = .two := by decide +kernel
  exact (hyields (.inr ⟨by simp, by simp⟩)).trans hsum

end Sample

end Readout
