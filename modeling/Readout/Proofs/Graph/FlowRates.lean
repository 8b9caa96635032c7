import Readout.Proofs.Graph.Moments
import Readout.Proofs.Rate.Sampling
import Readout.Proofs.Value.Whole

/-!
# Rates of a flow

A monitor of a flow counts the valid values that it finds since the run began, and samples these
counts at every tick. Two counts in a row differ by the values that were found in between, so the
samples add up: what is recorded is, tick for tick, the number of values since the tick before.
-/
namespace Readout

namespace Moment

/-- How often the operator found a valid value. -/
def hits (i : Nat) (ms : List Moment) : Nat := ms.countP (finds i)

/-- For each tick, how often the operator found a valid value since the tick before it, or since the
beginning, from which `n` such values are left. -/
def paces (i : Nat) : Nat → List Moment → List Nat
  | _, [] => []
  | n, .tick :: ms => n :: paces i 0 ms
  | n, .step isOpen ins :: ms => paces i (n + hits i [.step isOpen ins]) ms

/-- How often the operator found a valid value since the last tick. -/
def pending (i : Nat) : Nat → List Moment → Nat
  | n, [] => n
  | _, .tick :: ms => pending i 0 ms
  | n, .step isOpen ins :: ms => pending i (n + hits i [.step isOpen ins]) ms

variable {i n : Nat} {ms ns : List Moment} {m : Moment}

theorem hits_append (ms ns : List Moment) : hits i (ms ++ ns) = hits i ms + hits i ns :=
  List.countP_append

theorem hits_tick : hits i [tick] = 0 := rfl

theorem length_paces (n : Nat) (ms : List Moment) : (paces i n ms).length = ms.count .tick := by
  induction ms generalizing n with
  | nil => rfl
  | cons m ms ih =>
    cases m with
    | step isOpen ins => rw [paces, ih, List.count_cons_of_ne (by simp)]
    | tick => rw [paces, List.length_cons, ih, List.count_cons_self]

theorem paces_append_tick (n : Nat) (ms ns : List Moment) :
    paces i n (ms ++ .tick :: ns) = paces i n ms ++ pending i n ms :: paces i 0 ns := by
  induction ms generalizing n with
  | nil => rfl
  | cons m ms ih =>
    cases m with
    | step isOpen ins => exact ih _
    | tick => exact congrArg (n :: ·) (ih 0)

theorem paces_append_step (n : Nat) (ms : List Moment) (isOpen : Bool) (ins : List (List Value)) :
    paces i n (ms ++ [.step isOpen ins]) = paces i n ms := by
  induction ms generalizing n with
  | nil => rfl
  | cons m ms ih =>
    cases m with
    | step isOpen ins => exact ih _
    | tick => exact congrArg (n :: ·) (ih 0)

/-- No value is lost and none counts twice. -/
theorem sum_paces_add_pending (n : Nat) (ms : List Moment) :
    (paces i n ms).sum + pending i n ms = n + hits i ms := by
  induction ms generalizing n with
  | nil => exact Nat.zero_add n
  | cons m ms ih =>
    have hcons := hits_append (i := i) [m] ms
    rw [List.singleton_append] at hcons
    cases m with
    | step isOpen ins => rw [hcons, paces, pending, ih, Nat.add_assoc]
    | tick => rw [hcons, paces, pending, List.sum_cons, Nat.add_assoc, ih 0, hits_tick]

theorem paces_of_no_tick (h : .tick ∉ ms) : paces i n ms = [] :=
  List.length_eq_zero_iff.1 ((length_paces n ms).trans (List.count_eq_zero.2 h))

theorem pending_of_no_tick (h : .tick ∉ ms) : pending i n ms = n + hits i ms := by
  rw [← sum_paces_add_pending, paces_of_no_tick h, List.sum_nil, Nat.zero_add]

/-- Between two ticks in a row. -/
theorem getElem?_paces (ms cs : List Moment) (h : .tick ∉ ns) :
    (paces i n (ms ++ .tick :: (ns ++ .tick :: cs))).tail[ms.count .tick]? = some (hits i ns) := by
  rw [paces_append_tick, paces_append_tick, paces_of_no_tick h, pending_of_no_tick h, Nat.zero_add,
    List.nil_append, List.getElem?_tail, ← length_paces (i := i) n ms,
    List.getElem?_append_right (by omega), Nat.add_sub_cancel_left]
  rfl

/-- Between the first tick and the last one. -/
theorem sum_paces (ms : List Moment) {as cs : List Moment} (ha : .tick ∉ as) (hc : .tick ∉ cs) :
    (paces i n (as ++ .tick :: (ms ++ .tick :: cs))).tail.sum = hits i ms := by
  rw [paces_append_tick, paces_append_tick, paces_of_no_tick ha, paces_of_no_tick hc,
    List.nil_append, List.tail_cons, List.sum_append, List.sum_singleton, sum_paces_add_pending,
    Nat.zero_add]

end Moment

namespace Sampler

/-- What is recorded for a count that has grown by `n`. -/
def rate (σ : Sampler) (n : Nat) : Value := Value.ofNat n * σ.scale + σ.offset

/-- The sampler has been given a count that has grown by the given numbers, one after the other, and
has recorded all of them but for the first. -/
structure Recorded (σ : Sampler) (grown : List Nat) : Prop where
  lastValue : σ.lastValue = if grown = [] then none else some (Value.ofNat grown.sum)
  total : σ.total = grown.tail.length
  history : σ.history = (grown.tail.map σ.rate).rtake σ.capacity

variable {σ : Sampler} {grown : List Nat}

theorem recorded_reset (σ : Sampler) : σ.reset.Recorded [] := ⟨rfl, rfl, (List.rtake_nil ..).symm⟩

/-- One more sample of the count. -/
theorem Recorded.sample (h : σ.Recorded grown) {k : Nat} (hk : grown.sum + k < 2 ^ 53) :
    (σ.sample (Value.ofNat (grown.sum + k))).1.Recorded (grown ++ [k]) := by
  obtain ⟨hlast, htotal, hhistory⟩ := h
  cases grown with
  | nil =>
    rw [if_pos rfl] at hlast
    rw [Sampler.sample, hlast]
    exact ⟨by simp, htotal, hhistory⟩
  | cons first grown =>
    have hdelta := Value.ofNat_sub (Nat.le_add_right (first :: grown).sum k) hk
    have hgrows : Value.below (Value.ofNat k) Value.zero = false := by
      rw [Bool.eq_false_iff]
      intro hb
      have hlt := ((Value.is_ofNat_of_bits (n := k) (by omega)).below_iff .zero).1 hb
      exact absurd hlt (not_lt.2 (Nat.cast_nonneg k))
    rw [if_neg (List.cons_ne_nil _ _)] at hlast
    rw [Nat.add_sub_cancel_left] at hdelta
    rw [Sampler.sample, hlast]
    simp only [hdelta, hgrows, Bool.false_eq_true, if_false]
    have hrates : (first :: grown ++ [k]).tail.map σ.rate = grown.map σ.rate ++ [σ.rate k] := by
      rw [List.cons_append, List.tail_cons, List.map_append]
      rfl
    refine ⟨?_, ?_, (history_record hhistory _).trans ?_⟩
    · simp [record, Nat.add_assoc]
    · simp [record, htotal]
    · exact congrArg (List.rtake · σ.capacity) hrates.symm

/-- Without a scale, and as long as no rate is lost, the rates are what the count has grown by. -/
theorem Recorded.history_plain (h : σ.Recorded grown) (hscale : σ.scale = .one)
    (hoffset : σ.offset = .zero) (hcapacity : grown.tail.length ≤ σ.capacity)
    (hroom : grown.tail.sum < 2 ^ 53) : σ.history = grown.tail.map Value.ofNat := by
  have hrates : grown.tail.map σ.rate = grown.tail.map Value.ofNat := by
    refine List.map_congr_left fun n hn => ?_
    have hle := List.single_le_sum (fun _ _ => Nat.zero_le _) n hn
    rw [rate, hscale, hoffset, Value.ofNat_mul_one_add_zero (by omega)]
  rw [h.history, hrates, List.rtake, List.length_map, Nat.sub_eq_zero_of_le hcapacity,
    List.drop_zero]

end Sampler

namespace RateMonitor

theorem getElem?_zipSamplers (φ : Sampler → Value → Sampler) (ss : List Sampler) {vs : List Value}
    {i : Nat} {v : Value} (hv : vs[i]? = some v) :
    (zipSamplers φ ss vs)[i]? = ss[i]?.map (φ · v) := by
  induction ss generalizing vs i with
  | nil => cases vs <;> rfl
  | cons σ ss ih =>
    cases vs with
    | nil => cases hv
    | cons w vs =>
      cases i with
      | zero =>
        obtain rfl := Option.some.inj hv
        rfl
      | succ i => exact ih hv

theorem get_increment (st : Store) {p : Span} (hfit : p.stop ≤ st.slots) {i : Nat}
    (hi : i < p.length) (k : Nat) : (st.increment p k).get p i =
      if k = i then st.get p i + Value.one else st.get p i := by
  have hhits : p.Hits k st.slots (p.offset + i) ↔ k = i :=
    ⟨fun h => Nat.add_left_cancel h.2.1, fun h =>
      ⟨h ▸ hi, by rw [h], (Nat.add_lt_add_left hi _).trans_le hfit⟩⟩
  rw [Store.get, Store.read_increment]
  simp only [hhits]
  rfl

/-- The values count for the elements from the `k`-th one on. -/
theorem get_countValid (st : Store) {p : Span} (hfit : p.stop ≤ st.slots) {i : Nat}
    (hi : i < p.length) (k : Nat) (vs : List Value) :
    (countValid st p k vs).get p i =
      if k ≤ i ∧ (vs.getD (i - k) Value.invalid).isValid then st.get p i + Value.one
        else st.get p i := by
  induction vs generalizing st k with
  | nil =>
    have hnone : ¬ (k ≤ i ∧ (([] : List Value).getD (i - k) Value.invalid).isValid = true) :=
      fun h => absurd h.2 (by decide : ¬ Value.invalid.isValid = true)
    rw [if_neg hnone]
    rfl
  | cons v vs ih =>
    have hfirst : (if v.isValid then st.increment p k else st).get p i =
        if k = i ∧ v.isValid then st.get p i + Value.one else st.get p i := by
      cases hv : v.isValid <;> simp [get_increment st hfit hi k]
    rw [countValid, ih _ (by split <;> simpa using hfit), hfirst]
    rcases Nat.lt_trichotomy i k with hlt | rfl | hgt
    · rw [if_neg (by omega), if_neg (by omega), if_neg (by omega)]
    · simp
    · have hindex : i - k = i - (k + 1) + 1 := by omega
      rw [if_neg (by omega : ¬ (k = i ∧ v.isValid = true)), hindex, List.getD_cons_succ]
      simp [Nat.succ_le_of_lt hgt, hgt.le]

end RateMonitor

namespace Operator

open Moment

/-- What a monitor keeps of element `i`: how often it was found, and its sampler. -/
def watched (i : Nat) (op : Operator) (s : Store) : Value × Option Sampler :=
  match op.kind with
  | .rateMonitor m => (s.get m.hitCounts i, m.samplers[i]?)
  | _ => (Value.invalid, none)

/-- What a moment makes of it. -/
def watch (i : Nat) (w : Value × Option Sampler) (m : Moment) : Value × Option Sampler :=
  match m with
  | .step .. => (if m.finds i then w.1 + Value.one else w.1, w.2)
  | .tick => (w.1, w.2.map fun σ => (σ.sample w.1).1)

variable {op k : Operator} {i : Nat} {ms : List Moment} {s : Store} {m : RateMonitor}

theorem exists_monitor (hkind : op.kind = .rateMonitor m) (hr : k.resting = op.resting) :
    ∃ m', k.kind = .rateMonitor m' ∧ m'.mode = m.mode ∧ m'.hitCounts = m.hitCounts := by
  have hk : k.kind.resting = op.kind.resting := congrArg kind hr
  rw [hkind] at hk
  generalize k.kind = l at hk ⊢
  cases l with
  | rateMonitor m' =>
    have hm := Kind.rateMonitor.inj hk
    exact ⟨m', rfl, congrArg (·.mode) hm, congrArg (·.hitCounts) hm⟩
  | _ => cases hk

theorem hitCounts_fits (hkind : op.kind = .rateMonitor m) {slots : Nat} (h : op.InRange slots) :
    m.hitCounts.stop ≤ slots := by
  refine h.fits _ (List.mem_append_right _ (InRange.memory_mem_owned ?_))
  rw [hkind]
  exact List.mem_singleton_self _

theorem watched_beginRun (hkind : op.kind = .rateMonitor m) (hi : i < m.hitCounts.length)
    (f : Frame) (h : op.InRange f.store.slots) :
    watched i (op.beginRun f).1 (op.beginRun f).2.store =
      (Value.zero, (m.samplers.map Sampler.reset)[i]?) := by
  have hzero := f.store.get_fill Value.zero hi (hitCounts_fits hkind h)
  simp only [beginRun, hkind, watched, RateMonitor.beginRun, hzero]

theorem watched_step (hkind : op.kind = .rateMonitor m) (hmode : m.mode = .flow)
    (hi : i < m.hitCounts.length) (f : Frame) (h : op.InRange f.store.slots) :
    watched i (op.step f).1 (op.step f).2.store =
      watch i (watched i op f.store) (.step (op.isOpen f.bits) (op.inputValues f)) := by
  have hfit := hitCounts_fits hkind h
  cases hopen : op.isOpen f.bits with
  | true =>
    have hcount := RateMonitor.get_countValid f.store hfit hi 0 ((op.inputValues f).headD [])
    have hstep : m.step f.store ((op.inputValues f).headD []) =
        (m, RateMonitor.countValid f.store m.hitCounts 0 ((op.inputValues f).headD [])) := by
      rw [RateMonitor.step, hmode]
    rw [step, if_pos hopen]
    simp only [compute, hkind, hstep, watched, watch, hcount, Nat.zero_le, true_and, Nat.sub_zero]
    rfl
  | false =>
    have hs := h.shaped
    obtain ⟨inputs, outputs, gate, kind⟩ := op
    obtain rfl : kind = _ := hkind
    obtain ⟨_, -, rfl, -⟩ := hs
    rw [step_closed hopen]
    rfl

theorem watched_tick (hkind : op.kind = .rateMonitor m) (hmode : m.mode = .flow)
    (hi : i < m.hitCounts.length) (s : Store) :
    watched i (op.tick s) s = watch i (watched i op s) .tick := by
  have hvalue : (s.values m.hitCounts)[i]? = some (s.get m.hitCounts i) := by
    rw [Store.values, List.getElem?_map, List.getElem?_range hi]
    rfl
  simp only [tick, hkind, watched, watch, RateMonitor.tick, hmode,
    RateMonitor.getElem?_zipSamplers _ _ hvalue]

/-- What is kept of an element whose values flow by is driven by the moments. -/
theorem tracks_flow (hkind : op.kind = .rateMonitor m) (hmode : m.mode = .flow)
    (hi : i < m.hitCounts.length) :
    op.Tracks (watched i) (Value.zero, (m.samplers.map Sampler.reset)[i]?) (watch i) := by
  refine ⟨watched_beginRun hkind hi, fun k f hr h => ?_, fun k s hr _ => ?_, fun k f s hr => ?_,
    fun k s t hr hsame => ?_⟩ <;> obtain ⟨m', hk, hm, hc⟩ := exists_monitor hkind hr <;>
    rw [← hm] at hmode <;> rw [← hc] at hi
  · exact watched_step hk hmode hi f h
  · exact watched_tick hk hmode hi s
  · simp only [endRun, hk]
  · have hmem : m'.hitCounts ∈ op.ground := by
      rw [← ground_of_resting hr]
      exact memory_mem_ground (hk ▸ List.mem_singleton_self _)
    simp only [watched, hk, hsame.get_eq ⟨m'.hitCounts, hmem, Nat.le_add_right _ _,
      Nat.add_lt_add_left hi _⟩]

/-- What a monitor keeps of an element after the moments of a run. -/
theorem watch_moments {σ₀ : Option Sampler} (hσ : ∀ σ ∈ σ₀, σ.Recorded [])
    (hroom : hits i ms < 2 ^ 53) :
    (ms.foldl (watch i) (Value.zero, σ₀)).1 = Value.ofNat (hits i ms) ∧
      ∀ σ ∈ (ms.foldl (watch i) (Value.zero, σ₀)).2, σ.Recorded (paces i 0 ms) := by
  induction ms using List.reverseRecOn with
  | nil => exact ⟨rfl, hσ⟩
  | append_singleton ms m ih =>
    rw [hits_append] at hroom
    obtain ⟨hcount, hsamples⟩ := ih (by omega)
    rw [List.foldl_append, hits_append]
    generalize ms.foldl (watch i) (Value.zero, σ₀) = w at hcount hsamples ⊢
    cases m with
    | step isOpen ins =>
      rw [paces_append_step]
      refine ⟨?_, hsamples⟩
      cases hfinds : finds i (.step isOpen ins) with
      | true =>
        have hone : hits i [.step isOpen ins] = 1 := by simp [hits, hfinds]
        rw [hone] at hroom ⊢
        simp only [List.foldl_cons, List.foldl_nil, watch, hfinds, if_true, hcount]
        exact Value.ofNat_succ hroom
      | false =>
        have hzero : hits i [.step isOpen ins] = 0 := by simp [hits, hfinds]
        simp only [List.foldl_cons, List.foldl_nil, watch, hfinds, hzero, hcount]
        rfl
    | tick =>
      have hsum := sum_paces_add_pending (i := i) 0 ms
      rw [Nat.zero_add] at hsum
      refine ⟨hcount, fun σ hσ => ?_⟩
      obtain ⟨σ', hσ', rfl⟩ := Option.map_eq_some_iff.1 hσ
      rw [paces_append_tick, hcount, ← hsum]
      exact (hsamples σ' hσ').sample (by omega)

end Operator

namespace Graph

open Moment

/-- In every run a sampler of a flow has been given the number of values found for each tick. -/
theorem Begun.recorded_flow {g : Graph} (hg : g.Begun) {since : List RunCall}
    (hsince : .beginRun ∉ since) {event place : Nat} {op : Operator} {m : RateMonitor}
    (hop : (since.foldl RunCall.apply g).occupant? event place = some op)
    (hkind : op.kind = .rateMonitor m) (hmode : m.mode = .flow) {i : Nat} {σ : Sampler}
    (hσ : m.samplers[i]? = some σ) (hroom : Moment.hits i (moments event place g since) < 2 ^ 53) :
    σ.Recorded (paces i 0 (moments event place g since)) := by
  obtain ⟨made, hcourse⟩ := hg.course hsince hop (by rw [hkind]; rfl)
  obtain ⟨hrest, hr⟩ := hcourse.spec
  obtain ⟨m₀, hkind₀, hmode₀, hcounts₀⟩ := Operator.exists_monitor hkind hrest.symm
  have hi : i < m.hitCounts.length := by
    have hs := hr.shaped
    obtain ⟨inputs, outputs, gate, kind⟩ := op
    obtain rfl : kind = _ := hkind
    obtain ⟨_, -, -, hsamplers, hhits⟩ := hs
    rw [hhits, ← hsamplers]
    exact (List.getElem?_eq_some_iff.1 hσ).1
  have hseen := (Operator.tracks_flow hkind₀ (hmode₀.trans hmode) (hcounts₀ ▸ hi)).see_eq hcourse
  have hreset : ∀ τ ∈ (m₀.samplers.map Sampler.reset)[i]?, τ.Recorded [] := fun τ hτ => by
    rw [List.getElem?_map] at hτ
    obtain ⟨τ', -, rfl⟩ := Option.map_eq_some_iff.1 hτ
    exact τ'.recorded_reset
  have hrecorded := (Operator.watch_moments hreset hroom).2
  rw [← hseen, Operator.watched, hkind] at hrecorded
  exact hrecorded σ hσ

/-- In every run the samplers of a flow record, for each tick but the first one, how many valid
values were found since the tick before. So without a scale all that is found between the first tick
and the last one is recorded, and nothing twice. -/
theorem flow_recorded (g : Graph) (hg : g.Begun) (since : List RunCall) (hsince : .beginRun ∉ since)
    (event place : Nat) (op : Operator) (m : RateMonitor)
    (hop : (since.foldl RunCall.apply g).occupant? event place = some op)
    (hkind : op.kind = .rateMonitor m) (hmode : m.mode = .flow) (i : Nat) (σ : Sampler)
    (hσ : m.samplers[i]? = some σ) (hroom : Moment.hits i (moments event place g since) < 2 ^ 53) :
    ∃ counts : List Nat,
      counts.length = (moments event place g since).count .tick - 1 ∧
      (∀ as bs cs : List Moment, moments event place g since = as ++ .tick :: (bs ++ .tick :: cs) →
        .tick ∉ bs → counts[as.count .tick]? = some (Moment.hits i bs)) ∧
      σ.history = (counts.map fun n => Value.ofNat n * σ.scale + σ.offset).rtake σ.capacity ∧
      σ.total = counts.length ∧
      (σ.scale = .one → σ.offset = .zero → counts.length ≤ σ.capacity →
        σ.history = counts.map Value.ofNat ∧
        ∀ as bs cs : List Moment, moments event place g since = as ++ .tick :: (bs ++ .tick :: cs) →
          .tick ∉ as → .tick ∉ cs →
            σ.history.foldl (· + ·) Value.zero = Value.ofNat (Moment.hits i bs)) := by
  have hrecorded := hg.recorded_flow hsince hop hkind hmode hσ hroom
  have hsum := sum_paces_add_pending (i := i) 0 (moments event place g since)
  generalize moments event place g since = ms at *
  have hparts : (paces i 0 ms).tail.sum ≤ (paces i 0 ms).sum :=
    (List.tail_sublist _).sum_le_sum fun _ _ => Nat.zero_le _
  refine ⟨(paces i 0 ms).tail, by rw [List.length_tail, length_paces], ?_, hrecorded.history,
    hrecorded.total, fun hscale hoffset hcapacity => ?_⟩
  · rintro as bs cs rfl hbs
    exact getElem?_paces as cs hbs
  · have hplain := hrecorded.history_plain hscale hoffset hcapacity (by omega)
    refine ⟨hplain, ?_⟩
    rintro as bs cs rfl has hcs
    have hzero : Value.zero = Value.ofNat 0 := by decide +kernel
    rw [hplain, hzero, Value.foldl_add_ofNat _ (by omega), sum_paces bs has hcs, Nat.zero_add]

open Workbench in
/-- A monitor of a value that is always valid. -/
def monitored : Graph :=
  let input : Pipe := ⟨⟨0, 1⟩, ⟨4, 1⟩, ⟨8, 1⟩⟩
  ((after 4096 .batched [.pushPipe 1 .zero .two, .assign input.data [.one],
    .makeOperator (.rateMonitor input [.standard] .flow), .addOperator 0 0 none]).plan.build
      .fresh).beginRun

/-- Two ticks behind three events, with one more event and tick behind them. -/
def monitoredRun : List RunCall :=
  [.during (.endEvent 0), .during .tick, .during (.endEvent 0), .during (.endEvent 0),
    .during .tick, .during (.endEvent 0), .during .tick]

/-- Of the four values that are found the first one comes before the first tick. -/
theorem flow_recorded_monitored :
    monitored.Begun ∧ .beginRun ∉ monitoredRun ∧
      Moment.hits 0 (moments 0 0 monitored monitoredRun) = 4 ∧
      ∃ op m σ, (monitoredRun.foldl RunCall.apply monitored).occupant? 0 0 = some op ∧
        op.kind = .rateMonitor m ∧ m.mode = .flow ∧ m.samplers[0]? = some σ ∧
        ∃ counts : List Nat, counts.length = 2 ∧ σ.history = counts.map Value.ofNat ∧
          σ.total = 2 ∧ σ.history.foldl (· + ·) Value.zero = Value.ofNat 3 := by
  have hg : monitored.Begun := ⟨_, ⟨4096, .batched, _, .fresh, [], rfl⟩, rfl⟩
  have hsince : .beginRun ∉ monitoredRun := by simp [monitoredRun]
  let step : Moment := .step true [[.one]]
  have hmoments : moments 0 0 monitored monitoredRun =
    [step] ++ .tick :: ([step, step, .tick, step] ++ .tick :: []) := by decide +kernel
  let sampler : Sampler := ⟨.one, .zero, 3600, some (.ofNat 4), .one, .one, 2, [.ofNat 2, .one]⟩
  have hkind : ((monitoredRun.foldl RunCall.apply monitored).occupant? 0 0).map Operator.kind =
    some (.rateMonitor ⟨[sampler], .flow, ⟨12, 1⟩⟩) := by with_unfolding_all rfl
  obtain ⟨op, hop, hkind⟩ := Option.map_eq_some_iff.1 hkind
  have hhits : Moment.hits 0 (moments 0 0 monitored monitoredRun) = 4 := by
    rw [hmoments]
    decide
  obtain ⟨counts, hlength, -, -, htotal, hplain⟩ := flow_recorded monitored hg monitoredRun hsince
    0 0 op _ hop hkind rfl 0 sampler rfl (by rw [hhits]; decide)
  rw [hmoments] at hlength
  have htwo : counts.length = 2 := hlength
  obtain ⟨hhistory, hsum⟩ := hplain rfl rfl (by rw [htwo]; decide)
  exact ⟨hg, hsince, hhits, op, _, sampler, hop, hkind, rfl, rfl, counts, htwo, hhistory,
    htotal.trans htwo, hsum _ _ _ hmoments (by decide) (by decide)⟩

end Graph

end Readout
