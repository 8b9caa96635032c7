import Mathlib.Data.List.DropRight
import Readout.Rate.Sampler

/-!
# Samplers over time

What a sampler keeps can be read off the calls that it has seen, but each field forgets at other
calls: a reset ends everything, while a cleared history ends neither the count of rates nor the
value that the next sample is compared with. So the rates are counted from the last call that stops
them, and which calls stop them is a parameter.
-/
namespace Readout

inductive SamplerCall
  | sample (v : Value)
  | record (rate : Value)
  | clearHistory
  | reset
deriving DecidableEq

namespace SamplerCall

def apply (σ : Sampler) : SamplerCall → Sampler
  | sample v => (σ.sample v).1
  | record rate => σ.record rate
  | clearHistory => σ.clearHistory
  | reset => σ.reset

def resets : SamplerCall → Bool
  | reset => true
  | _ => false

def clears : SamplerCall → Bool
  | clearHistory | reset => true
  | _ => false

def value? : SamplerCall → Option Value
  | sample v => some v
  | _ => none

/-- The calls behind the last one that stops. -/
def since (stops : SamplerCall → Bool) (calls : List SamplerCall) : List SamplerCall :=
  calls.rtakeWhile (!stops ·)

/-- The calls up to the last one that stops, with this one. -/
def upTo (stops : SamplerCall → Bool) (calls : List SamplerCall) : List SamplerCall :=
  calls.rdropWhile (!stops ·)

/-- The value sampled last since the sampler was reset. -/
def current? (calls : List SamplerCall) : Option Value :=
  ((since resets calls).filterMap value?).getLast?

def rate? (scale offset : Value) (calls : List SamplerCall) (v : Value) : Option Value :=
  ((current? calls).map (v - ·)).bind fun delta =>
    if delta.below .zero then none else some (delta * scale + offset)

/-- The rate that a call records behind others. -/
def recorded? (scale offset : Value) (before : List SamplerCall) : SamplerCall → Option Value
  | sample v => rate? scale offset before v
  | record rate => some rate
  | clearHistory | reset => none

/-- The rates that calls record behind others, in order. -/
def rates (scale offset : Value) : (before calls : List SamplerCall) → List Value
  | _, [] => []
  | before, c :: calls =>
    (recorded? scale offset before c).toList ++ rates scale offset (before ++ [c]) calls

def ratesSince (scale offset : Value) (stops : SamplerCall → Bool) (calls : List SamplerCall) :
    List Value :=
  rates scale offset (upTo stops calls) (since stops calls)

variable {scale offset : Value} {calls : List SamplerCall}

theorem upTo_append_since (stops : SamplerCall → Bool) (calls : List SamplerCall) :
    upTo stops calls ++ since stops calls = calls :=
  List.rdropWhile_append_rtakeWhile

theorem since_concat (stops : SamplerCall → Bool) (calls : List SamplerCall) (c : SamplerCall) :
    since stops (calls ++ [c]) = if stops c then [] else since stops calls ++ [c] := by
  cases h : stops c <;> simp [since, h]

theorem upTo_concat (stops : SamplerCall → Bool) (calls : List SamplerCall) (c : SamplerCall) :
    upTo stops (calls ++ [c]) = if stops c then calls ++ [c] else upTo stops calls := by
  cases h : stops c <;> simp [upTo, h]

theorem rates_append (before calls more : List SamplerCall) :
    rates scale offset before (calls ++ more) =
      rates scale offset before calls ++ rates scale offset (before ++ calls) more := by
  induction calls generalizing before with
  | nil => simp [rates]
  | cons c calls ih => simp [rates, ih]

@[simp] theorem ratesSince_nil (stops : SamplerCall → Bool) :
    ratesSince scale offset stops [] = [] := rfl

@[simp] theorem current?_nil : current? [] = none := rfl

theorem ratesSince_concat (stops : SamplerCall → Bool) (calls : List SamplerCall)
    (c : SamplerCall) : ratesSince scale offset stops (calls ++ [c]) =
      if stops c then [] else
        ratesSince scale offset stops calls ++ (recorded? scale offset calls c).toList := by
  rw [ratesSince, since_concat, upTo_concat]
  cases stops c with
  | true => simp [rates]
  | false => simp [rates_append, rates, upTo_append_since, ratesSince]

theorem current?_concat (calls : List SamplerCall) (c : SamplerCall) :
    current? (calls ++ [c]) = if c.resets then none else c.value?.or (current? calls) := by
  rw [current?, since_concat]
  cases c with
  | sample v => simp [resets, value?]
  | record rate => simp [resets, value?, current?]
  | clearHistory => simp [resets, value?, current?]
  | reset => simp [resets]

end SamplerCall

theorem length_rtake {α : Type} (l : List α) (n : Nat) : (l.rtake n).length = min n l.length := by
  rw [List.rtake, List.length_drop]
  omega

namespace Sampler

open SamplerCall

variable {σ : Sampler} {scale offset : Value} {capacity : Nat} {calls : List SamplerCall}
  {cleared counted : List Value}

@[simp] theorem record_lastValue (σ : Sampler) (rate : Value) :
    (σ.record rate).lastValue = σ.lastValue := rfl

theorem history_record {rates : List Value} (h : σ.history = rates.rtake σ.capacity) (r : Value) :
    (σ.record r).history = (rates ++ [r]).rtake σ.capacity := by
  cases hc : σ.capacity with
  | zero => simp [record, hc, h]
  | succ c =>
    have hlength : σ.history.length = min (c + 1) rates.length := by rw [h, hc, length_rtake]
    rw [List.rtake_concat_succ, record, hc]
    simp only [Nat.add_one_ne_zero, if_false]
    congr 1
    -- a history that is full gives up its first rate
    split
    · rw [h, hc, List.rtake, List.rtake]
      congr 1
      omega
    · rw [h, hc, List.rtake, List.rtake, List.drop_drop]
      congr 1
      omega

/-- The sampler has kept the rates of `cleared` and counted those of `counted`. -/
structure Keeps (σ : Sampler) (cleared counted : List Value) : Prop where
  history : σ.history = cleared.rtake σ.capacity
  total : σ.total = counted.length
  lastRate : σ.lastRate = counted.getLastD .zero

theorem Keeps.length_le (h : σ.Keeps cleared counted) : σ.history.length ≤ σ.capacity := by
  rw [h.history, length_rtake]
  exact Nat.min_le_left ..

theorem Keeps.record (h : σ.Keeps cleared counted) (rate : Value) :
    (σ.record rate).Keeps (cleared ++ [rate]) (counted ++ [rate]) where
  history := history_record h.history rate
  total := by simp [Sampler.record, h.total]
  lastRate := by simp [Sampler.record]

theorem Keeps.record? (h : σ.Keeps cleared counted) (rate : Option Value) :
    (rate.elim σ σ.record).Keeps (cleared ++ rate.toList) (counted ++ rate.toList) := by
  cases rate with
  | none => simpa using h
  | some rate => exact h.record rate

/-- The sampler is what the calls make of a new one. -/
structure Remembers (scale offset : Value) (capacity : Nat) (σ : Sampler)
    (calls : List SamplerCall) : Prop where
  scaled : σ.scale = scale
  shifted : σ.offset = offset
  sized : σ.capacity = capacity
  lastValue : σ.lastValue = current? calls
  keeps : σ.Keeps (ratesSince scale offset clears calls) (ratesSince scale offset resets calls)

theorem remembers_new (scale offset : Value) (capacity : Nat) :
    Remembers scale offset capacity (new scale offset capacity) [] :=
  ⟨rfl, rfl, rfl, rfl, (List.rtake_nil ..).symm, rfl, rfl⟩

theorem Remembers.sample_eq (h : Remembers scale offset capacity σ calls) (v : Value) :
    σ.sample v =
      let delta := ((current? calls).map (v - ·)).getD σ.lastDelta
      let compared := { σ with lastValue := some v, lastDelta := delta }
      ((rate? scale offset calls v).elim compared compared.record, rate? scale offset calls v) := by
  rw [Sampler.sample, h.lastValue, ← h.scaled, ← h.shifted]
  cases hp : current? calls with
  | none => simp [rate?, hp]
  | some p => cases hb : (v - p).below .zero <;> simp [rate?, hp, hb]

theorem Remembers.apply (h : Remembers scale offset capacity σ calls) (c : SamplerCall) :
    Remembers scale offset capacity (c.apply σ) (calls ++ [c]) := by
  obtain ⟨rfl, rfl, rfl, hlast, hkeeps⟩ := id h
  cases c with
  | sample v =>
    -- the value is compared and remembered first, and only then is a rate recorded
    let compared : Sampler :=
      { σ with lastValue := some v, lastDelta := ((current? calls).map (v - ·)).getD σ.lastDelta }
    have hkeeps' : compared.Keeps _ _ := ⟨hkeeps.history, hkeeps.total, hkeeps.lastRate⟩
    have hnext := hkeeps'.record? (rate? σ.scale σ.offset calls v)
    rw [SamplerCall.apply, h.sample_eq v]
    cases hr : rate? σ.scale σ.offset calls v with
    | none =>
      refine ⟨rfl, rfl, rfl, by simp [current?_concat, resets, value?], ?_⟩
      simpa [ratesSince_concat, clears, resets, recorded?, hr] using hnext
    | some rate =>
      refine ⟨rfl, rfl, rfl, by simp [current?_concat, resets, value?], ?_⟩
      simpa [ratesSince_concat, clears, resets, recorded?, hr] using hnext
  | record rate =>
    rw [SamplerCall.apply]
    refine ⟨rfl, rfl, rfl, ?_, ?_⟩
    · simpa [current?_concat, resets, value?] using hlast
    · simpa [ratesSince_concat, clears, resets, recorded?] using hkeeps.record rate
  | clearHistory =>
    rw [SamplerCall.apply, clearHistory]
    refine ⟨rfl, rfl, rfl, ?_, ?_, ?_, ?_⟩
    · simpa [current?_concat, resets, value?] using hlast
    · simp [ratesSince_concat, clears, List.rtake]
    · simpa [ratesSince_concat, resets, recorded?] using hkeeps.total
    · simpa [ratesSince_concat, resets, recorded?] using hkeeps.lastRate
  | reset =>
    have hnew := remembers_new σ.scale σ.offset σ.capacity
    rw [SamplerCall.apply, Sampler.reset]
    refine ⟨rfl, rfl, rfl, ?_, ?_⟩
    · simpa [current?_concat, resets] using hnew.lastValue
    · simpa [ratesSince_concat, clears, resets] using hnew.keeps

theorem remembers_foldl (scale offset : Value) (capacity : Nat) (calls : List SamplerCall) :
    Remembers scale offset capacity
      (calls.foldl SamplerCall.apply (new scale offset capacity)) calls := by
  induction calls using List.reverseRecOn with
  | nil => exact remembers_new scale offset capacity
  | append_singleton calls c ih => simpa using ih.apply c

/-- A sampler keeps the newest rates since its history was emptied, and counts the rates since it
was reset. A sample is compared with the one before it, also across cleared histories and recorded
rates, and yields a rate unless it went back. -/
theorem sampled_foldl (scale offset : Value) (capacity : Nat) (calls : List SamplerCall) :
    let σ := calls.foldl SamplerCall.apply (new scale offset capacity)
    σ.history.length ≤ capacity ∧
    σ.history = (ratesSince scale offset clears calls).rtake capacity ∧
    σ.total = (ratesSince scale offset resets calls).length ∧
    σ.lastRate = (ratesSince scale offset resets calls).getLastD .zero ∧
    σ.lastValue = current? calls ∧
    (∀ v, (σ.sample v).1.lastValue = some v ∧
      (∀ p, current? calls = some p → (σ.sample v).1.lastDelta = v - p) ∧
      (∀ rate, recorded? scale offset calls (.sample v) = some rate ↔
        ∃ p, current? calls = some p ∧ (v - p).below .zero = false ∧
          rate = (v - p) * scale + offset) ∧
      (σ.sample v).2 = recorded? scale offset calls (.sample v)) ∧
    ∀ rate, (σ.record rate).lastValue = σ.lastValue := by
  intro σ
  have h : Remembers scale offset capacity σ calls := remembers_foldl scale offset capacity calls
  refine ⟨h.sized ▸ h.keeps.length_le, h.sized ▸ h.keeps.history, h.keeps.total, h.keeps.lastRate,
    h.lastValue, fun v => ⟨?_, fun p hp => ?_, fun rate => ?_, ?_⟩, σ.record_lastValue⟩
  · rw [h.sample_eq v]
    cases rate? scale offset calls v <;> rfl
  · rw [h.sample_eq v]
    cases rate? scale offset calls v <;> simp [hp, record]
  · cases hp : current? calls with
    | none => simp [recorded?, rate?, hp]
    | some p =>
      cases hb : (v - p).below .zero <;> simp [recorded?, rate?, hp, hb, eq_comm (a := rate)]
  · rw [h.sample_eq v]
    rfl

end Sampler

end Readout
