import Readout.Proofs.Arena.Ledger
import Readout.Proofs.Operator.Tally
import Readout.Proofs.Value.Quotients

/-!
# Edges of bins

A coordinate is filled by a factor that was rounded when the histogram was made, and looked up by a
product and a quotient. The two round differently, so next to an edge a coordinate can be counted
in the bin beside the one that is looked up, and nowhere else (`Histogram.fill_bin`).
-/
namespace Readout

namespace Rounding

/-- The whole part of a number, up to the last of so many bins. -/
def clipped (n : ℕ) (q : ℚ) : ℕ := min ⌊q⌋₊ (n - 1)

section Clipped

variable {n : ℕ} {p q ε : ℚ}

theorem le_clipped_iff {k : ℕ} (hk : 0 < k) : k ≤ clipped n q ↔ k < n ∧ (k : ℚ) ≤ q := by
  rw [clipped, le_min_iff, Nat.le_floor_iff' hk.ne', and_comm]
  exact and_congr_left' (by omega)

theorem clipped_eq (h : ∀ k : ℕ, 0 < k → k < n → ((k : ℚ) ≤ p ↔ (k : ℚ) ≤ q)) :
    clipped n p = clipped n q := by
  refine eq_of_forall_le_iff fun k => ?_
  rcases Nat.eq_zero_or_pos k with rfl | hk
  · simp
  · rw [le_clipped_iff hk, le_clipped_iff hk]
    exact and_congr_right fun hn => h k hk hn

theorem clipped_eq_of_near (hnear : |p - q| ≤ ε)
    (hfar : ∀ k : ℕ, 0 < k → k < n → ε < |q - k|) : clipped n p = clipped n q := by
  obtain ⟨hlo, hhi⟩ := abs_le.1 hnear
  refine clipped_eq fun k hk hn => ?_
  have hk := hfar k hk hn
  rcases le_or_gt (k : ℚ) q with hle | hlt
  · rw [abs_of_nonneg (sub_nonneg.2 hle)] at hk
    exact ⟨fun _ => hle, fun _ => by linarith⟩
  · rw [abs_of_neg (sub_neg.2 hlt)] at hk
    exact ⟨fun h => by linarith, fun h => by linarith⟩

theorem clipped_le_succ (hp : p ≤ q + 1) (hq : 0 ≤ q) : clipped n p ≤ clipped n q + 1 := by
  have hfloor : ⌊p⌋₊ ≤ ⌊q⌋₊ + 1 := by
    rw [← Nat.floor_add_one hq]
    exact Nat.floor_le_floor hp
  rw [clipped, clipped]
  omega

theorem clipped_of_le (h : (n : ℚ) ≤ p) : clipped n p = n - 1 :=
  min_eq_right ((Nat.sub_le n 1).trans (Nat.le_floor h))

/-- Two numbers that were rounded from one are in one bin or in bins side by side. -/
theorem clipped_le_of_near {r : ℚ} (hn : n < 2 ^ 32) (hq : 0 ≤ q) (hp : |p - q| ≤ q / 2 ^ 51)
    (hr : |r - q| ≤ q / 2 ^ 51) : clipped n p ≤ clipped n r + 1 := by
  obtain ⟨hplo, hphi⟩ := abs_le.1 hp
  obtain ⟨hrlo, hrhi⟩ := abs_le.1 hr
  have hcast : (n : ℚ) < 2 ^ 32 := by exact_mod_cast hn
  -- the error passes one only where both numbers are beyond the last bin
  rcases le_or_gt q (2 ^ 33) with hsmall | hlarge
  · exact clipped_le_succ (by linarith) (by linarith)
  · rw [clipped_of_le (p := p) (by linarith), clipped_of_le (p := r) (by linarith)]
    omega

end Clipped

/-- A number is zero or in a range of powers of two. -/
def Binades (a b : ℤ) (q : ℚ) : Prop := q = 0 ∨ 2 ^ a ≤ q ∧ q ≤ 2 ^ b

namespace Binades

variable {a b c d : ℤ} {p q : ℚ}

theorem mul (h : Binades a b p) (h' : Binades c d q) : Binades (a + c) (b + d) (p * q) := by
  rcases h with rfl | ⟨hlo, hhi⟩
  · exact .inl (zero_mul q)
  · rcases h' with rfl | ⟨hlo', hhi'⟩
    · exact .inl (mul_zero p)
    · have hq := (two_zpow_pos c).trans_le hlo'
      rw [Binades, zpow_add₀ (by norm_num), zpow_add₀ (by norm_num)]
      exact .inr ⟨mul_le_mul hlo hlo' (two_zpow_pos c).le ((two_zpow_pos a).le.trans hlo),
        mul_le_mul hhi hhi' hq.le (two_zpow_pos b).le⟩

theorem div (h : Binades a b p) (h' : Binades c d q) : Binades (a - d) (b - c) (p / q) := by
  rcases h with rfl | ⟨hlo, hhi⟩
  · exact .inl (zero_div q)
  · rcases h' with rfl | ⟨hlo', hhi'⟩
    · exact .inl (div_zero p)
    · have hq := (two_zpow_pos c).trans_le hlo'
      rw [Binades, zpow_sub₀ (by norm_num), zpow_sub₀ (by norm_num)]
      exact .inr ⟨div_le_div₀ ((two_zpow_pos a).le.trans hlo) hlo hq hhi',
        div_le_div₀ (two_zpow_pos b).le hhi (two_zpow_pos c) hlo'⟩

theorem nearest (h : Binades a b q) : Binades (a - 1) (b + 1) (nearest q) := by
  rcases h with rfl | ⟨hlo, hhi⟩
  · exact .inl nearest_zero
  · obtain ⟨hmin, hmax⟩ := nearest_bounds ((two_zpow_pos a).le.trans hlo)
    rw [Binades, zpow_sub_one₀ (by norm_num), zpow_add_one₀ (by norm_num)]
    exact .inr ⟨by linarith, by linarith⟩

theorem natCast {n : ℕ} (hn : n < 2 ^ 32) : Binades 0 32 n := by
  rcases Nat.eq_zero_or_pos n with rfl | hpos
  · exact .inl Nat.cast_zero
  · refine .inr ⟨?_, by exact_mod_cast hn.le⟩
    rw [zpow_zero]
    exact_mod_cast hpos

theorem widen (h : Binades a b q) (hc : c ≤ a) (hd : b ≤ d) : Binades c d q :=
  h.imp_right fun ⟨hlo, hhi⟩ => ⟨(zpow_le_zpow_right₀ (by norm_num) hc).trans hlo,
    hhi.trans (zpow_le_zpow_right₀ (by norm_num) hd)⟩

theorem within (h : Binades a b q) (hc : c ≤ a) (hd : b < d) :
    (q = 0 ∨ 2 ^ c ≤ q) ∧ q < 2 ^ d := by
  rcases h with rfl | ⟨hlo, hhi⟩
  · exact ⟨.inl rfl, two_zpow_pos d⟩
  · exact ⟨.inr ((zpow_le_zpow_right₀ (by norm_num) hc).trans hlo),
      hhi.trans_lt (zpow_lt_zpow_right₀ (by norm_num) hd)⟩

end Binades

end Rounding

open Rounding

/-- A coordinate lies so far above the minimum of an axis with such a range, and neither of these
numbers is among the smallest or the largest doubles. -/
structure Axis.Measures (a : Axis) (x : Value) (δ ρ : ℚ) : Prop where
  offset : Value.Is (x - a.min) δ
  range : Value.Is a.range ρ
  range_pos : 0 < ρ
  offset_binades : Binades (-450) 450 δ
  range_binades : Binades (-450) 450 ρ

theorem Value.Is.min_toNat {v : Value} {y : ℚ} (h : Value.Is v y) {bins : ℕ}
    (hb : bins < 2 ^ 32) : Nat.min v.toNat (bins - 1) = clipped bins y := by
  rw [h.toNat_eq, clipped]
  change min (min _ _) _ = _
  omega

namespace Axis.Measures

variable {a : Axis} {x : Value} {δ ρ : ℚ} {bins : ℕ}

theorem is_factor (h : a.Measures x δ ρ) (hb : bins < 2 ^ 32) :
    Value.Is (Value.ofNat bins / a.range) (nearest (bins / ρ)) := by
  obtain ⟨hlo, hhi⟩ := ((Binades.natCast hb).div h.range_binades).within (c := -1021) (d := 1023)
    (by decide) (by decide)
  exact (Value.is_ofNat_of_bits (by omega)).div h.range h.range_pos hlo hhi

/-- The number whose whole part says where to fill. -/
theorem is_filled (h : a.Measures x δ ρ) (hb : bins < 2 ^ 32) :
    Value.Is ((x - a.min) * (Value.ofNat bins / a.range)) (nearest (δ * nearest (bins / ρ))) := by
  have hfactor := ((Binades.natCast hb).div h.range_binades).nearest
  obtain ⟨hlo, hhi⟩ := (h.offset_binades.mul hfactor).within (c := -1022) (d := 1023)
    (by decide) (by decide)
  exact h.offset.mul (h.is_factor hb) hlo hhi

/-- The number whose whole part is looked up. -/
theorem is_shown (h : a.Measures x δ ρ) (hb : bins < 2 ^ 32) :
    Value.Is ((x - a.min) * Value.ofNat bins / a.range) (nearest (nearest (δ * bins) / ρ)) := by
  have hproduct := h.offset_binades.mul (Binades.natCast hb)
  obtain ⟨hlo, hhi⟩ := hproduct.within (c := -1022) (d := 1023) (by decide) (by decide)
  obtain ⟨hlo', hhi'⟩ := (hproduct.nearest.div h.range_binades).within (c := -1021) (d := 1023)
    (by decide) (by decide)
  exact (h.offset.mul (Value.is_ofNat_of_bits (by omega)) hlo hhi).div h.range h.range_pos hlo' hhi'

end Axis.Measures

namespace Filler

/-- Filling a bin shows after a flush, whether the bin was queued or not. -/
theorem read_flush_increment (f : Filler) (st : Store) {data cell : Span} {i : ℕ}
    (hc : data.element? i = some cell) (k : ℕ) :
    ((f.increment st data i).1.flush (f.increment st data i).2).2.read k =
      if cell.Hits 0 st.slots k then (f.flush st).2.read k + Value.one
      else (f.flush st).2.read k := by
  rw [increment, hc]
  dsimp only
  split
  · rw [read_flush, read_flush, hits_cons]
    split
    · rw [raised_succ]
    · rfl
  · rw [read_flush, read_flush, Store.slots_increment, Store.read_increment]
    split
    · rw [raised_add_one, raised_succ]
    · rfl

theorem get_flush_increment (f : Filler) {st : Store} {data : Span} {i : ℕ} (hi : i < data.length)
    (hd : data.stop ≤ st.slots) (hroom : st.slots < Word.size 32) {k : ℕ} (hk : k < data.length) :
    ((f.increment st data i).1.flush (f.increment st data i).2).2.get data k =
      if k = i then (f.flush st).2.get data k + Value.one else (f.flush st).2.get data k := by
  rw [Span.stop] at hd
  have hcell : data.element? i = some ⟨data.offset + i, 1⟩ := by
    rw [Span.element?, if_pos hi, Span.make?, if_pos (by omega)]
  rw [Store.get, f.read_flush_increment st hcell, Store.get]
  refine if_congr ?_ rfl rfl
  change (0 < 1 ∧ data.offset + i + 0 = data.offset + k ∧ data.offset + k < st.slots) ↔ k = i
  omega

end Filler

namespace Histogram

theorem push_eq_ok {l : Arena.Ledger} (hl : l.Sound) {bins : ℕ} {axis : Axis} {h : Histogram}
    {a : Arena} (hpush : push bins axis l.arena = (.ok h, a)) :
    0 < bins ∧ h.axis = axis ∧ h.factor = Value.ofNat bins / axis.range ∧ h.bins = bins ∧
      h.data.stop ≤ a.store.slots ∧ a.store.slots < Word.size 32 := by
  rw [push] at hpush
  split at hpush
  · obtain ⟨_, _, hthrow, -⟩ := exists_of_bind_apply_eq hpush
    cases hthrow
  · next hcond =>
    obtain ⟨data, b, hdata, hpure⟩ := exists_of_bind_apply_eq hpush
    obtain ⟨hmade, rfl⟩ := Prod.mk.inj hpure
    obtain rfl := Except.ok.inj hmade
    obtain ⟨hlength, hstop, hroom⟩ := hl.pushSpan_eq_ok hdata
    exact ⟨by omega, rfl, rfl, hlength, hstop, hroom⟩

/-- Both ways to find a bin agree on which side of the axis a coordinate lies. -/
theorem bin_cases (h : Histogram) (x : Value) :
    (h.bin x = .under ∧ h.target x = .under) ∨ (h.bin x = .over ∧ h.target x = .over) ∨
      (h.bin x = .index (Nat.min ((x - h.axis.min) * Value.ofNat h.bins / h.axis.range).toNat
          (h.bins - 1)) ∧
        h.target x = .index (Nat.min ((x - h.axis.min) * h.factor).toNat (h.bins - 1))) := by
  simp only [bin, Axis.bin, target]
  split
  · exact .inl ⟨rfl, rfl⟩
  · split
    · exact .inr (.inl ⟨rfl, rfl⟩)
    · exact .inr (.inr ⟨rfl, rfl⟩)

theorem sides_eq (h : Histogram) (x : Value) :
    (h.target x = .under ↔ h.bin x = .under) ∧ (h.target x = .over ↔ h.bin x = .over) := by
  rcases h.bin_cases x with ⟨hbin, htarget⟩ | ⟨hbin, htarget⟩ | ⟨hbin, htarget⟩ <;>
    simp [hbin, htarget]

/-- No rounding moves a coordinate over an edge: in units of bins it is further away from all edges
between them, or the factor and the product are exact. -/
def OffEdge (bins : ℕ) (δ ρ : ℚ) : Prop :=
  (∀ k : ℕ, 0 < k → k < bins → δ * bins / ρ / 2 ^ 51 < |δ * bins / ρ - k|) ∨
    (nearest (bins / ρ) = bins / ρ ∧ nearest (δ * bins) = δ * bins)

theorem indices_beside {bins : ℕ} (hb : bins < 2 ^ 32) {axis : Axis} {x : Value} {δ ρ : ℚ}
    (hm : axis.Measures x δ ρ) :
    let i := Nat.min ((x - axis.min) * Value.ofNat bins / axis.range).toNat (bins - 1)
    let j := Nat.min ((x - axis.min) * (Value.ofNat bins / axis.range)).toNat (bins - 1)
    (i ≤ j + 1 ∧ j ≤ i + 1) ∧ (OffEdge bins δ ρ → j = i) := by
  intro i j
  have hi : i = _ := (hm.is_shown hb).min_toNat hb
  have hj : j = _ := (hm.is_filled hb).min_toNat hb
  have hδ := hm.offset.nonneg
  have hρ := hm.range_pos
  have hn : (0 : ℚ) ≤ bins := Nat.cast_nonneg bins
  have hq : 0 ≤ δ * bins / ρ := div_nonneg (mul_nonneg hδ hn) hρ.le
  have hshown := abs_nearest_div_sub_le (mul_nonneg hδ hn) hρ
  have hfilled := abs_nearest_mul_sub_le hδ (div_nonneg hn hρ.le)
  rw [← mul_div_assoc] at hfilled
  rw [hi, hj]
  refine ⟨⟨clipped_le_of_near hb hq hshown hfilled, clipped_le_of_near hb hq hfilled hshown⟩, ?_⟩
  rintro (hfar | ⟨hfactor, hproduct⟩)
  · rw [clipped_eq_of_near hfilled hfar, clipped_eq_of_near hshown hfar]
  · rw [hfactor, hproduct, mul_div_assoc]

/-- The numbers that the counters have reached, those of the bins after a flush. -/
structure Counts (h : Histogram) (f : Filler) (st : Store) (c : ℕ → ℕ) (u o : ℕ) : Prop where
  bins : ∀ k < h.bins, (f.flush st).2.get h.data k = Value.ofNat (c k)
  underflow : h.underflow = Value.ofNat u
  overflow : h.overflow = Value.ofNat o

section Fill

variable {h : Histogram} {f : Filler} {st : Store} {c : ℕ → ℕ} {u o : ℕ} {x : Value}

theorem Counts.content (hc : h.Counts f st c u o) {i : ℕ} (hi : h.bin x = .index i)
    (hlt : i < h.bins) : h.content (f.flush st).2 x = Value.ofNat (c i) := by
  rw [Histogram.content, hi]
  exact hc.bins i hlt

theorem fill_same (h : Histogram) (x : Value) (f : Filler) (st : Store) :
    (h.fill x f st).1.bin = h.bin ∧ (h.fill x f st).1.bins = h.bins := by
  rw [fill]
  split
  · exact ⟨rfl, rfl⟩
  · cases h.target x <;> exact ⟨rfl, rfl⟩

/-- A coordinate raises the counter of its target by one and no other. -/
theorem Counts.fill (hc : h.Counts f st c u o) (hfit : h.Fits st)
    (hbelow : ∀ k < h.bins, c k + 1 < 2 ^ 53) (hu : u + 1 < 2 ^ 53) (ho : o + 1 < 2 ^ 53)
    (hx : x.isNaN = false) :
    (h.fill x f st).1.Counts (h.fill x f st).2.1 (h.fill x f st).2.2
      (fun k => c k + if h.target x = .index k then 1 else 0)
      (u + if h.target x = .under then 1 else 0) (o + if h.target x = .over then 1 else 0) := by
  rw [Histogram.fill, if_neg (by simp [hx])]
  rcases ht : h.target x with - | - | j
  · refine ⟨fun k hk => ?_, ?_, hc.overflow⟩
    · rw [if_neg (by simp)]
      exact hc.bins k hk
    · rw [if_pos rfl, ← Value.ofNat_succ hu, ← hc.underflow]
  · refine ⟨fun k hk => ?_, hc.underflow, ?_⟩
    · rw [if_neg (by simp)]
      exact hc.bins k hk
    · rw [if_pos rfl, ← Value.ofNat_succ ho, ← hc.overflow]
  · refine ⟨fun k hk => ?_, hc.underflow, hc.overflow⟩
    have hget := f.get_flush_increment (target_lt hfit.bins ht) hfit.stop hfit.room hk
    rw [hc.bins k hk] at hget
    refine hget.trans ?_
    by_cases hkj : k = j
    · rw [if_pos hkj, if_pos (by rw [hkj]), Value.ofNat_succ (hbelow k hk)]
    · rw [if_neg hkj, if_neg fun hindex => hkj (Bin.index.inj hindex).symm, Nat.add_zero]

end Fill

/-- A coordinate is counted on the side of the axis where it is looked up, or in one bin, which is
the one that is looked up or stands beside it. -/
theorem fill_bin {bytes bins : ℕ} {requests : List Arena.Request} {axis : Axis} {made : Histogram}
    {a : Arena}
    (hpush : push bins axis ((Arena.Ledger.new bytes).after requests).arena = (.ok made, a))
    {h : Histogram} (hdata : h.data = made.data) (haxis : h.axis = made.axis)
    (hfactor : h.factor = made.factor) {st : Store} (hst : st.slots = a.store.slots) {f : Filler}
    {c : ℕ → ℕ} {u o : ℕ} (hc : h.Counts f st c u o) (hbelow : ∀ k < bins, c k + 1 < 2 ^ 53)
    (hu : u + 1 < 2 ^ 53) (ho : o + 1 < 2 ^ 53) {x : Value} (hx : x.isNaN = false) :
    (h.fill x f st).1.Counts (h.fill x f st).2.1 (h.fill x f st).2.2
        (fun k => c k + if h.target x = .index k then 1 else 0)
        (u + if h.bin x = .under then 1 else 0) (o + if h.bin x = .over then 1 else 0) ∧
      (∀ j, h.target x = .index j → ∃ i, h.bin x = .index i) ∧
      ∀ i, h.bin x = .index i → i < bins ∧
        (h.fill x f st).1.content ((h.fill x f st).2.1.flush (h.fill x f st).2.2).2 x =
          Value.ofNat (c i + if h.target x = .index i then 1 else 0) ∧
        ∃ j < bins, h.target x = .index j ∧
          ∀ δ ρ, axis.Measures x δ ρ → (i ≤ j + 1 ∧ j ≤ i + 1) ∧ (OffEdge bins δ ρ → j = i) := by
  obtain ⟨h0, hmade, hscale, hbins, hstop, hroom⟩ :=
    push_eq_ok ((Arena.Ledger.sound_new bytes).after requests) hpush
  rw [← hst] at hstop hroom
  rw [← hdata] at hstop
  rw [hmade] at haxis
  rw [hscale] at hfactor
  obtain rfl : h.bins = bins := by rw [← hbins, Histogram.bins, hdata, Histogram.bins]
  have hb : h.bins < 2 ^ 32 := ((Nat.le_add_left _ _).trans hstop).trans_lt hroom
  obtain ⟨hunder, hover⟩ := h.sides_eq x
  have hcounts := hc.fill ⟨h0, hstop, hroom⟩ hbelow hu ho hx
  rw [if_congr hunder rfl rfl, if_congr hover rfl rfl] at hcounts
  obtain ⟨hsame, hsize⟩ := h.fill_same x f st
  refine ⟨hcounts, ?_, fun i hi => ?_⟩ <;>
    rcases h.bin_cases x with ⟨hbin, htarget⟩ | ⟨hbin, htarget⟩ | ⟨hbin, htarget⟩
  · simp [htarget]
  · simp [htarget]
  · exact fun _ _ => ⟨_, hbin⟩
  · cases hbin.symm.trans hi
  · cases hbin.symm.trans hi
  · have hlt : i < h.bins := Axis.bin_lt h0 hi
    refine ⟨hlt, hcounts.content (by rw [hsame, hi]) (by rwa [hsize]), _, target_lt h0 htarget,
      htarget, fun δ ρ hm => ?_⟩
    have hbeside := indices_beside hb hm
    rw [← hfactor, ← haxis] at hbeside
    rwa [← Bin.index.inj (hbin.symm.trans hi)]

/-- A unit for each bin, where nothing is rounded. -/
theorem fill_bin_units : ∃ made a,
    push 4 (Axis.ofLimits Value.zero (Value.ofNat 4)) (Arena.Ledger.new 1024).arena =
        (.ok made, a) ∧
      made.bin (Value.ofNat 2) = .index 2 ∧
      (made.fill (Value.ofNat 2) (.new .batched 1) a.store).1.content
          ((made.fill (Value.ofNat 2) (.new .batched 1) a.store).2.1.flush
            (made.fill (Value.ofNat 2) (.new .batched 1) a.store).2.2).2 (Value.ofNat 2) =
        Value.ofNat 1 := by
  obtain ⟨made, a, hpush, hbins, hbin, hzero, hunder, hover⟩ : ∃ made a,
      push 4 (Axis.ofLimits Value.zero (Value.ofNat 4)) ((Arena.Ledger.new 1024).after []).arena =
          (.ok made, a) ∧
        made.bins = 4 ∧ made.bin (Value.ofNat 2) = .index 2 ∧
        (∀ k < 4, ((Filler.new .batched 1).flush a.store).2.get made.data k = Value.ofNat 0) ∧
        made.underflow = Value.ofNat 0 ∧ made.overflow = Value.ofNat 0 := by
    refine ⟨_, _, rfl, rfl, ?_, ?_, ?_, ?_⟩ <;> decide +kernel
  have hcounts : made.Counts (.new .batched 1) a.store (fun _ => 0) 0 0 :=
    ⟨fun k hk => hzero k (hbins ▸ hk), hunder, hover⟩
  have hmeasures : (Axis.ofLimits Value.zero (Value.ofNat 4)).Measures (Value.ofNat 2) 2 4 := by
    have htwo : Value.ofNat 2 - (Axis.ofLimits Value.zero (Value.ofNat 4)).min = Value.ofNat 2 := by
      decide +kernel
    have hfour : (Axis.ofLimits Value.zero (Value.ofNat 4)).range = Value.ofNat 4 := by
      decide +kernel
    have hsmall : ∀ n : ℕ, n < 2 ^ 32 → Binades (-450) 450 n := fun n hn =>
      (Binades.natCast hn).widen (by decide) (by decide)
    refine ⟨?_, ?_, by norm_num, hsmall 2 (by decide), hsmall 4 (by decide)⟩
    · rw [htwo]
      exact_mod_cast Value.is_ofNat_of_bits (n := 2) (by decide)
    · rw [hfour]
      exact_mod_cast Value.is_ofNat_of_bits (n := 4) (by decide)
  have hoff : OffEdge 4 2 4 := by
    have hone := nearest_of_bits (n := 1) (by decide) 0
    have height := nearest_of_bits (n := 8) (by decide) 0
    refine .inr ⟨?_, ?_⟩
    · norm_num at hone ⊢
      exact hone
    · norm_num at height ⊢
      exact height
  obtain ⟨-, -, hindex⟩ := fill_bin hpush rfl rfl rfl rfl hcounts (fun _ _ => by decide) (by decide)
    (by decide) (x := Value.ofNat 2) (by decide +kernel)
  obtain ⟨-, hcontent, j, -, htarget, hbeside⟩ := hindex 2 hbin
  obtain rfl := (hbeside 2 4 hmeasures).2 hoff
  rw [if_pos htarget] at hcontent
  exact ⟨made, a, hpush, hbin, hcontent⟩

/-- The middle of an axis belongs to the second one of two bins. The factor was rounded down, and so
far that the coordinate is counted in the first one. -/
theorem fill_beside_bin : ∃ made a,
    push 2 (Axis.ofLimits Value.zero (Value.ofNat 98)) (Arena.Ledger.new 1024).arena =
        (.ok made, a) ∧
      made.bin (Value.ofNat 49) = .index 1 ∧
      ((made.fill (Value.ofNat 49) (.new .direct 0) a.store).2.2.values made.data =
        [Value.ofNat 1, Value.zero]) ∧
      (made.fill (Value.ofNat 49) (.new .direct 0) a.store).1.content
          (made.fill (Value.ofNat 49) (.new .direct 0) a.store).2.2 (Value.ofNat 49) =
        Value.zero := by
  refine ⟨_, _, rfl, ?_, ?_, ?_⟩ <;> decide +kernel

end Histogram

end Readout
