import Readout.Proofs.Value.Doubles

/-!
# Quotients and integer parts

A quotient is rounded like a sum or a product: division goes on until the digits and the remainder
tell how to round (`Is.div`). The conversion to a natural number cuts off the fraction and stops at
the largest word (`Is.toNat_eq`).
-/
namespace Readout.Value

open Float.Model Float.Model.UnpackedFloat Rounding

section Division

variable {m n : ℕ} {e d : ℤ}

theorem stands_fraction (p : ℕ) {r : ℕ} (hr : r < n) :
    Stands (.ofMantissaAndAccuracy p (accuracyOfFraction r n)) (p + r / n) := by
  have hnq : (0 : ℚ) < n := by exact_mod_cast (Nat.zero_le r).trans_lt hr
  rw [accuracyOfFraction]
  split
  · next h => simp [h, Stands, ExtendedMantissa.ofMantissaAndAccuracy]
  · next h =>
    have hr' : (0 : ℚ) < r := by exact_mod_cast Nat.pos_of_ne_zero h
    have hpos : 0 < (r : ℚ) / n := div_pos hr' hnq
    rcases lt_trichotomy (2 * r) n with hcmp | hcmp | hcmp
    · have hhalf : (r : ℚ) / n < 1 / 2 := by
        rw [div_lt_div_iff₀ hnq (by norm_num)]
        exact_mod_cast (by omega : r * 2 < 1 * n)
      rw [compare_lt_iff_lt.2 hcmp]
      change (p : ℚ) < _ ∧ _ < (p : ℚ) + 1 / 2
      exact ⟨by linarith, by linarith⟩
    · have hhalf : (r : ℚ) / n = 1 / 2 := by
        rw [div_eq_div_iff hnq.ne' (by norm_num)]
        exact_mod_cast (by omega : r * 2 = 1 * n)
      rw [compare_eq_iff_eq.2 hcmp]
      exact congrArg _ hhalf
    · have hhalf : 1 / 2 < (r : ℚ) / n := by
        rw [div_lt_div_iff₀ (by norm_num) hnq]
        exact_mod_cast (by omega : 1 * n < r * 2)
      have hone : (r : ℚ) / n < 1 := (div_lt_one hnq).2 (by exact_mod_cast hr)
      rw [compare_gt_iff_gt.2 hcmp]
      change (p : ℚ) + 1 / 2 < _ ∧ _ < (p : ℚ) + 1
      exact ⟨by linarith, by linarith⟩

/-- The digits of a quotient and the remainder of its division stand for the quotient. -/
theorem stands_quotient (k : ℕ) (hn : 0 < n) :
    Stands (.ofMantissaAndAccuracy (k / n) (accuracyOfFraction (k % n) n)) (k / n) := by
  have hnq : (0 : ℚ) < n := by exact_mod_cast hn
  have hk : ((k / n : ℕ) : ℚ) * n + (k % n : ℕ) = k := by exact_mod_cast Nat.div_add_mod' k n
  have hsplit : (k : ℚ) / n = (k / n : ℕ) + (k % n : ℕ) / (n : ℚ) := by
    rw [← mul_div_cancel_right₀ ((k / n : ℕ) : ℚ) hnq.ne', ← add_div, hk]
  rw [hsplit]
  exact stands_fraction _ (Nat.mod_lt k hn)

theorem Normal.quotient_bounds (h : Normal m e) (h' : Normal n d) :
    2 ^ 52 ≤ m * 2 ^ 53 / n ∧ m * 2 ^ 53 / n < 2 ^ 54 := by
  have hmlo := h.mantissa_ge
  have hmhi := h.mantissa_lt
  have hnlo := h'.mantissa_ge
  have hnhi := h'.mantissa_lt
  have hn : 0 < n := by omega
  rw [Nat.le_div_iff_mul_le hn, Nat.div_lt_iff_lt_mul hn]
  omega

theorem Normal.divCore_eq (h : Normal m e) (h' : Normal n d) (he : -1021 ≤ e - d) :
    divCore Format.binary64 m e n d =
      ((m <<< 53) / n, e - d - 53, accuracyOfFraction ((m <<< 53) % n) n) := by
  have ht : min (e - d) (Format.binary64.targetExponent (totalExponent m e - totalExponent n d)) =
      e - d - 53 := by
    simp only [Format.targetExponent, totalExponent, h.log2_eq, h'.log2_eq, Format.mantissaBits,
      Format.minExponent]
    norm_num
    omega
  have hshift : (e - d - (e - d - 53)).toNat = 53 := by omega
  simp only [divCore, ht, hshift]

/-- Rounding the digits of a quotient rounds the quotient. -/
theorem rounded_quotient {k : ℕ} (hn : 0 < n) (hk : 2 ^ 52 ≤ k / n)
    (he : -1074 ≤ (k / n).log2 + e - 52) :
    ∃ m' e' h, roundWithAccuracy Format.binary64 .positive (k / n) e
      (accuracyOfFraction (k % n) n) = .finite .positive m' e' h ∧
        Rounded (k / n * 2 ^ e) ((k / n).log2 + e) m' e' :=
  rounded_roundWithAccuracy (stands_quotient k hn) ((Nat.le_log2 (by omega)).2 hk) he

theorem shifted_quotient (x y : ℚ) (e d : ℤ) :
    x * 2 ^ 53 / y * 2 ^ (e - d - 53) = x * 2 ^ e / (y * 2 ^ d) := by
  have hd := two_zpow_pos d
  have hpow : (2 : ℚ) ^ (e - d - 53) = 2 ^ e / 2 ^ d / 2 ^ 53 := by
    rw [zpow_sub₀ (by norm_num), zpow_sub₀ (by norm_num)]
    rfl
  rw [hpow]
  field_simp

theorem Normal.is_div (h : Normal m e) (h' : Normal n d) (hm : 0 < m) (hn : 0 < n)
    (hlo : 2 ^ (-1021 : ℤ) ≤ (m : ℚ) * 2 ^ e / (n * 2 ^ d))
    (hhi : (m : ℚ) * 2 ^ e / (n * 2 ^ d) < 2 ^ (1023 : ℤ)) :
    Is (ofFloat (.ofModel (Float.Model.pack (UnpackedFloat.div Format.binary64
      (.finite .positive m e hm) (.finite .positive n d hn)))))
      (nearest (m * 2 ^ e / (n * 2 ^ d))) := by
  obtain ⟨hklo, hkhi⟩ := h.quotient_bounds h'
  obtain ⟨k, hk⟩ : ∃ k, m <<< 53 = k := ⟨_, rfl⟩
  have hdigits : k = m * 2 ^ 53 := hk.symm.trans (Nat.shiftLeft_eq m 53)
  have hexact : (k : ℚ) / n * 2 ^ (e - d - 53) = m * 2 ^ e / (n * 2 ^ d) := by
    rw [hdigits, ← shifted_quotient]
    push_cast
    rfl
  rw [← hdigits] at hklo hkhi
  rw [← hexact] at hlo hhi ⊢
  have hlog : 52 ≤ (k / n).log2 := (Nat.le_log2 (by omega)).2 hklo
  -- the quotient has at most 54 digits, so with a lower exponent it would be subnormal
  have hbottom : -1021 < 54 + (e - d - 53) := by
    have hquot : (k : ℚ) / n < 2 ^ (54 : ℤ) := by
      rw [div_lt_iff₀ (by exact_mod_cast hn)]
      exact_mod_cast (Nat.div_lt_iff_lt_mul hn).1 hkhi
    have hpow : (2 : ℚ) ^ (-1021 : ℤ) < 2 ^ (54 + (e - d - 53)) := by
      rw [zpow_add₀ (by norm_num)]
      exact hlo.trans_lt (mul_lt_mul_of_pos_right hquot (two_zpow_pos _))
    rwa [zpow_lt_zpow_iff_right₀ (by norm_num)] at hpow
  have htop : (k / n).log2 + (e - d - 53) < 1023 := by
    refine log2_add_lt (by omega) (lt_of_le_of_lt ?_ hhi)
    exact mul_le_mul_of_nonneg_right Nat.cast_div_le (two_zpow_pos _).le
  obtain ⟨m', e', hm', hu, hr⟩ := rounded_quotient (e := e - d - 53) hn hklo (by omega)
  have hdiv : UnpackedFloat.div Format.binary64 (.finite .positive m e hm)
      (.finite .positive n d hn) = .finite .positive m' e' hm' := by
    rw [← hu, UnpackedFloat.div, h.divCore_eq h' (by omega), hk]
    rfl
  rw [hdiv]
  exact .of_rounded hr hm' (by omega) htop

theorem div_eq {a b : Value} {x y : ℚ} (ha : Is a x) (hb : Is b y) :
    a / b = ofFloat (.ofModel (Float.Model.pack (UnpackedFloat.div Format.binary64
      a.toFloat.toModel.unpack b.toFloat.toModel.unpack))) := by
  have hdiv : a / b = binary (· / ·) a b := rfl
  rw [hdiv, binary, ha.isNaN_eq, hb.isNaN_eq]
  rfl

/-- Quotients that stay far from the largest double and from subnormal ones are nearest to the
exact ones. -/
theorem Is.div {a b : Value} {x y : ℚ} (ha : Is a x) (hb : Is b y) (hy : 0 < y)
    (hlo : x / y = 0 ∨ 2 ^ (-1021 : ℤ) ≤ x / y) (hhi : x / y < 2 ^ (1023 : ℤ)) :
    Is (a / b) (nearest (x / y)) := by
  rw [div_eq ha hb]
  cases hb with
  | zero => exact absurd hy (lt_irrefl 0)
  | @parts n d hn h' =>
    cases ha with
    | zero =>
      have hdiv : UnpackedFloat.div Format.binary64 (.zero .positive)
          (.finite .positive n d hn) = .zero .positive := rfl
      rw [unpack_zero, h'.unpack_toFloat hn, zero_div, nearest_zero, hdiv, ofFloat_zero]
      exact .zero
    | parts hm h =>
      rw [h.unpack_toFloat hm, h'.unpack_toFloat hn]
      exact h.is_div h' hm hn (hlo.resolve_left (div_pos h.number_pos hy).ne') hhi

end Division

section Truncation

variable {m : ℕ} {e : ℤ}

theorem roundToInt_eq (m : ℕ) (e : ℤ) : roundToInt .positive m e = ⌊(m : ℚ) * 2 ^ e⌋ := by
  obtain ⟨k, hk⟩ : ∃ k : ℕ, k = (e - 0).toNat := ⟨_, rfl⟩
  obtain ⟨j, hj⟩ : ∃ j : ℕ, j = (0 - (e - k) : ℤ).toNat := ⟨_, rfl⟩
  have hround : roundToInt .positive m e =
      ((ExtendedMantissa.ofMantissaAndAccuracy (m <<< k) .exact >>> j).mantissa : ℤ) := by
    rw [hj, hk]
    rfl
  have hvalue : ((m <<< k : ℕ) : ℚ) / 2 ^ j = m * 2 ^ e := by
    have he : e = k - j := by omega
    rw [he, zpow_sub₀ (by norm_num), zpow_natCast, zpow_natCast, Nat.shiftLeft_eq]
    push_cast
    ring
  rw [hround, ← hvalue, ((stands_exact (m <<< k)).shiftRight j).floor]

theorem toNat_ofNatClamp (n : ℕ) : (UInt64.ofNatClamp n).toNat = min n (2 ^ 64 - 1) := by
  rw [UInt64.ofNatClamp]
  split
  · next h =>
    have hle : n ≤ 2 ^ 64 - 1 := Nat.le_sub_one_of_lt h
    rw [UInt64.toNat_ofNatLT, min_eq_left hle]
  · next h =>
    have hle : 2 ^ 64 - 1 ≤ n := (Nat.sub_le _ _).trans (Nat.le_of_not_lt h)
    rw [UInt64.toNat_ofNatLT, min_eq_right hle]
    rfl

theorem Is.toNat_eq {a : Value} {x : ℚ} (ha : Is a x) : a.toNat = min ⌊x⌋₊ (2 ^ 64 - 1) := by
  have htoNat : a.toNat = (UInt64.ofNatClamp
      (a.toFloat.toModel.unpack.toInt 0 (UInt64.size - 1)).toNat).toNat := by
    rw [toNat, ha.isNaN_eq]
    rfl
  have hint : a.toFloat.toModel.unpack.toInt 0 (UInt64.size - 1) = ⌊x⌋ := by
    cases ha with
    | zero =>
      rw [unpack_zero, Int.floor_zero]
      rfl
    | parts hm h =>
      rw [h.unpack_toFloat hm, ← roundToInt_eq]
      rfl
  rw [htoNat, hint, toNat_ofNatClamp, Int.floor_toNat]

end Truncation

end Readout.Value
