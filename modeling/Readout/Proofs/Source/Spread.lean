import Readout.Proofs.Value.Doubles
import Readout.Source.Basic

/-!
# Spread values

A value of so many data bits is rounded to a double, a fraction below one is added, and the sum is
rounded once more. What comes out lies between zero and the power of two above all values of these
bits, but either rounding can end on that power. It does not exactly if value and fraction lack
more than the last half step to it (`spread_limits`).
-/
namespace Readout

open Rounding

namespace Dither

/-- The next fraction, in steps of `2 ^ -53`. -/
def fraction (d : Dither) : ℕ := (d.next.1 >>> 11).toNat

theorem fraction_lt (d : Dither) : d.fraction < 2 ^ 53 := by
  have hlt := d.next.1.toNat_lt
  rw [fraction, UInt64.toNat_shiftRight]
  change d.next.1.toNat >>> 11 < _
  rw [Nat.shiftRight_eq_div_pow]
  omega

theorem is_unit : Value.Is unit (2 ^ (-53 : ℤ)) := by
  have hnormal : Value.Normal (2 ^ 52) (-105) := ⟨le_refl _, by decide, by decide, by decide⟩
  have hnumber : ((2 ^ 52 : ℕ) : ℚ) * 2 ^ (-105 : ℤ) = 2 ^ (-53 : ℤ) := by norm_num
  have his := Value.Is.parts (by decide) hnormal
  rwa [hnumber, ← Value.eq_ofParts (v := unit) hnormal (by decide) (by decide)] at his

theorem is_draw (d : Dither) : Value.Is d.draw.1 (d.fraction / 2 ^ 53) := by
  have hlt := d.fraction_lt
  -- no more than 53 bits are drawn, so neither conversion nor scaling rounds
  have hexact : nearest (d.fraction : ℚ) = d.fraction := by simpa using nearest_of_bits hlt 0
  have hof : Value.Is (Value.ofNat d.fraction) d.fraction := by
    have h := Value.is_ofNat (n := d.fraction) (by omega)
    rwa [hexact] at h
  have hmul : (d.fraction : ℚ) * 2 ^ (-53 : ℤ) = d.fraction / 2 ^ 53 := by
    rw [zpow_neg, ← div_eq_mul_inv]
    norm_cast
  have hcast : (d.fraction : ℚ) < 2 ^ 53 := by exact_mod_cast hlt
  have hsmall : d.fraction = 0 ∨ 1 ≤ d.fraction := by omega
  have hfar : (2 : ℚ) ^ (-1022 : ℤ) ≤ 2 ^ (-53 : ℤ) :=
    zpow_le_zpow_right₀ (by norm_num) (by norm_num)
  have hstep := two_zpow_pos (-53)
  have h := hof.mul is_unit ?_ ?_
  · rw [nearest_of_bits hlt, hmul] at h
    exact h
  · rcases hsmall with hzero | hone
    · left
      rw [hzero, Nat.cast_zero, zero_mul]
    · right
      have hcast : (1 : ℚ) ≤ d.fraction := by exact_mod_cast hone
      nlinarith
  · have hbig : (2 : ℚ) ^ (0 : ℤ) < 2 ^ (1023 : ℤ) :=
      zpow_lt_zpow_right₀ (by norm_num) (by norm_num)
    rw [hmul]
    refine lt_of_lt_of_le ?_ hbig.le
    rw [zpow_zero, div_lt_one (by norm_num)]
    exact hcast

end Dither

namespace Source

/-- The fraction that is added to a value, in steps of `2 ^ -53`. -/
def drawn (plain : Bool) (d : Dither) : ℕ := if plain then 0 else d.fraction

theorem drawn_lt (plain : Bool) (d : Dither) : drawn plain d < 2 ^ 53 := by
  have hlt := d.fraction_lt
  rw [drawn]
  split <;> omega

theorem is_spread (plain : Bool) (d : Dither) (v : UInt64) :
    Value.Is (spread plain d v).1 (nearest (nearest v.toNat + drawn plain d / 2 ^ 53)) := by
  have hof : Value.Is (Value.ofNat v.toNat) (nearest v.toNat) := Value.is_ofNat v.toNat_lt
  have hle : nearest (v.toNat : ℚ) ≤ 2 ^ (64 : ℤ) :=
    (nearest_lt_iff (Nat.cast_nonneg _) (by exact_mod_cast v.toNat_lt)).1
  have hfraction : (drawn plain d : ℚ) / 2 ^ 53 < 1 := by
    rw [div_lt_one (by norm_num)]
    exact_mod_cast drawn_lt plain d
  have hsum : nearest (v.toNat : ℚ) + drawn plain d / 2 ^ 53 < 2 ^ (1023 : ℤ) := by
    have hbig : (2 : ℚ) ^ (65 : ℤ) ≤ 2 ^ (1023 : ℤ) :=
      zpow_le_zpow_right₀ (by norm_num) (by norm_num)
    refine lt_of_lt_of_le ?_ hbig
    norm_num at hle ⊢
    linarith
  cases plain with
  | true =>
    have hzero : (drawn true d : ℚ) / 2 ^ 53 = 0 := by simp [drawn]
    rw [hzero] at hsum ⊢
    exact hof.add .zero hsum
  | false => exact hof.add d.is_draw hsum

theorem spread_limits (plain : Bool) (d : Dither) {v : UInt64} {bits : ℕ}
    (hv : v.toNat < 2 ^ bits) (hbits : bits ≤ 64) :
    Value.atMost Value.zero (spread plain d v).1 = true ∧
      Value.atMost (spread plain d v).1 (Value.powerOfTwo bits) = true ∧
      (Value.below (spread plain d v).1 (Value.powerOfTwo bits) = true ↔
        2 ^ 54 * v.toNat + 2 * drawn plain d + 2 ^ bits < 2 ^ (bits + 54)) := by
  have his := is_spread plain d v
  have hpow := Value.is_powerOfTwo (n := bits) (by omega)
  obtain ⟨hle, hlt⟩ := nearest_add_fraction hv (drawn_lt plain d)
  rw [Value.Is.zero.atMost_iff his, his.atMost_iff hpow, his.below_iff hpow]
  exact ⟨his.nonneg, hle, hlt⟩

theorem spread_plain_lt {v bits : ℕ} (hv : v < 2 ^ bits) (hbits : bits ≤ 53) :
    2 ^ 54 * v + 2 * 0 + 2 ^ bits < 2 ^ (bits + 54) := by
  have hpow : 2 ^ bits ≤ 2 ^ 53 := Nat.pow_le_pow_right (by decide) hbits
  rw [Nat.pow_add]
  omega

end Source

end Readout
