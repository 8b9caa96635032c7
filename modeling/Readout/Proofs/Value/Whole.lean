import Readout.Proofs.Value.Order

/-!
# Whole numbers

Whole numbers below two to the 53 are doubles, and so are their sums, products and differences as
long as these stay below: arithmetic on them does not round (`ofNat_add`, `ofNat_mul`,
`ofNat_sub`). But for the sign of zero a value that stands for one of them is the converted number
(`Denotes.eq_ofNat`).
-/
namespace Readout.Value

open Float.Model Float.Model.UnpackedFloat Rounding

section Difference

variable {a b : Value} {x y : ℚ}

theorem sub_eq (ha : Is a x) (hb : Is b y) : a - b = ofFloat (.ofModel (Float.Model.pack
    (UnpackedFloat.sub Format.binary64 a.toFloat.toModel.unpack b.toFloat.toModel.unpack))) := by
  have hsub : a - b = binary (· - ·) a b := rfl
  rw [hsub, binary, ha.isNaN_eq, hb.isNaN_eq]
  rfl

/-- At the smaller exponent the difference of two mantissas is exact. -/
theorem exists_difference {m n : ℕ} {e d : ℤ} (hle : (n : ℚ) * 2 ^ d ≤ m * 2 ^ e) :
    ∃ k : ℕ, ((decreaseExponent m e (min e d)).1 : ℤ) - (decreaseExponent n d (min e d)).1 = k ∧
      (k : ℚ) * 2 ^ min e d = m * 2 ^ e - n * 2 ^ d := by
  have hm := decreaseExponent_value m (min_le_left e d)
  have hn := decreaseExponent_value n (min_le_right e d)
  have hshift : (decreaseExponent n d (min e d)).1 ≤ (decreaseExponent m e (min e d)).1 := by
    rw [← hm, ← hn] at hle
    exact_mod_cast le_of_mul_le_mul_right hle (two_zpow_pos _)
  refine ⟨_, (Nat.cast_sub hshift).symm, ?_⟩
  rw [Nat.cast_sub hshift, sub_mul, hm, hn]

theorem Normal.is_sub {m n : ℕ} {e d : ℤ} (h : Normal n d) (hm : 0 < m) (hn : 0 < n)
    (hle : (n : ℚ) * 2 ^ d ≤ m * 2 ^ e)
    (hlo : (m : ℚ) * 2 ^ e - n * 2 ^ d = 0 ∨ 2 ^ (-1022 : ℤ) ≤ (m : ℚ) * 2 ^ e - n * 2 ^ d)
    (hhi : (m : ℚ) * 2 ^ e < 2 ^ (1023 : ℤ)) :
    Is (ofFloat (.ofModel (Float.Model.pack (UnpackedFloat.sub Format.binary64
      (.finite .positive m e hm) (.finite .positive n d hn)))))
      (nearest (m * 2 ^ e - n * 2 ^ d)) := by
  obtain ⟨k, hk, hexact⟩ := exists_difference hle
  have hsub : UnpackedFloat.sub Format.binary64 (.finite .positive m e hm)
      (.finite .positive n d hn) =
        UnpackedFloat.normalize Format.binary64 (k : ℤ) (min e d) .positive := by
    rw [← hk]
    rfl
  have hlt : (k : ℚ) * 2 ^ min e d < 2 ^ (1023 : ℤ) := by
    have hpos := h.number_pos
    rw [hexact]
    linarith
  rw [hsub, ← hexact]
  rw [← hexact] at hlo
  rcases Nat.eq_zero_or_pos k with rfl | hpos
  · have hzero : ((0 : ℕ) : ℚ) * 2 ^ min e d = 0 := by rw [Nat.cast_zero, zero_mul]
    have hnormalize : UnpackedFloat.normalize Format.binary64 ((0 : ℕ) : ℤ) (min e d) .positive =
        .zero .positive := rfl
    rw [hzero, nearest_zero, hnormalize, ofFloat_zero]
    exact .zero
  · have hne := (mul_pos (Nat.cast_pos.2 hpos : (0 : ℚ) < k) (two_zpow_pos (min e d))).ne'
    have hbottom := le_log2_add (hlo.resolve_left hne)
    obtain ⟨m', e', hm', hu, hr⟩ := rounded_round (e := min e d) hpos (by omega)
    have hgt : compare (k : ℤ) 0 = .gt := Int.compare_eq_gt.2 (by omega)
    rw [UnpackedFloat.normalize, hgt]
    simp only [Int.toNat_natCast, hu]
    exact .of_rounded hr hm' (by omega) (log2_add_lt hpos hlt)

/-- Differences that are not negative and stay far from subnormal doubles are nearest to the exact
ones. -/
theorem Is.sub (ha : Is a x) (hb : Is b y) (hle : y ≤ x)
    (hlo : x - y = 0 ∨ 2 ^ (-1022 : ℤ) ≤ x - y) (hhi : x < 2 ^ (1023 : ℤ)) :
    Is (a - b) (nearest (x - y)) := by
  rw [sub_eq ha hb]
  cases hb with
  | zero =>
    rw [sub_zero, ha.nearest_eq]
    cases ha with
    | zero => exact .zero
    | parts hm h =>
      rw [unpack_zero, h.unpack_toFloat hm]
      simp only [UnpackedFloat.sub, h.ofFloat_pack hm]
      exact .parts hm h
  | parts hn h' =>
    cases ha with
    | zero => exact absurd hle (not_le.2 h'.number_pos)
    | parts hm h =>
      rw [h.unpack_toFloat hm, h'.unpack_toFloat hn]
      exact h'.is_sub hm hn hle hlo hhi

end Difference

section Exact

variable {a b n : ℕ} {v w : Value}

theorem nearest_natCast (h : n < 2 ^ 53) : nearest n = n := by
  have hnearest := nearest_of_bits h 0
  rwa [zpow_zero, mul_one] at hnearest

theorem natCast_lt_top (h : n < 2 ^ 53) : (n : ℚ) < 2 ^ (1023 : ℤ) := by
  have hnat : (n : ℚ) < 2 ^ (53 : ℤ) := by exact_mod_cast h
  exact hnat.trans (zpow_lt_zpow_right₀ (by norm_num) (by decide))

theorem natCast_eq_zero_or (n : ℕ) : (n : ℚ) = 0 ∨ 2 ^ (-1022 : ℤ) ≤ (n : ℚ) := by
  rcases Nat.eq_zero_or_pos n with rfl | hpos
  · exact Or.inl Nat.cast_zero
  · have hone : (1 : ℚ) ≤ n := by exact_mod_cast hpos
    exact Or.inr ((zpow_le_one_of_nonpos₀ (by norm_num) (by decide)).trans hone)

theorem ofNat_add (h : a + b < 2 ^ 53) : ofNat a + ofNat b = ofNat (a + b) := by
  have hsum := (is_ofNat_of_bits (n := a) (by omega)).add (is_ofNat_of_bits (n := b) (by omega))
    (by exact_mod_cast natCast_lt_top h)
  rw [← Nat.cast_add, nearest_natCast h] at hsum
  exact hsum.unique (is_ofNat_of_bits h) rfl

theorem ofNat_mul (ha : a < 2 ^ 53) (hb : b < 2 ^ 53) (h : a * b < 2 ^ 53) :
    ofNat a * ofNat b = ofNat (a * b) := by
  have hproduct := (is_ofNat_of_bits ha).mul (is_ofNat_of_bits hb)
    (by exact_mod_cast natCast_eq_zero_or (a * b)) (by exact_mod_cast natCast_lt_top h)
  rw [← Nat.cast_mul, nearest_natCast h] at hproduct
  exact hproduct.unique (is_ofNat_of_bits h) rfl

theorem ofNat_sub (hle : b ≤ a) (h : a < 2 ^ 53) : ofNat a - ofNat b = ofNat (a - b) := by
  have hdifference := (is_ofNat_of_bits h).sub (is_ofNat_of_bits (n := b) (by omega))
    (by exact_mod_cast hle) (by rw [← Nat.cast_sub hle]; exact natCast_eq_zero_or _)
    (natCast_lt_top h)
  rw [← Nat.cast_sub hle, nearest_natCast (by omega)] at hdifference
  exact hdifference.unique (is_ofNat_of_bits (by omega)) rfl

theorem foldl_add_ofNat (ns : List ℕ) (h : a + ns.sum < 2 ^ 53) :
    (ns.map ofNat).foldl (· + ·) (ofNat a) = ofNat (a + ns.sum) := by
  induction ns generalizing a with
  | nil => rfl
  | cons n ns ih =>
    rw [List.sum_cons, ← Nat.add_assoc] at h ⊢
    rw [List.map_cons, List.foldl_cons, ofNat_add (by omega), ih h]

/-- Scaled by one and shifted by zero, a whole number stays what it is. -/
theorem ofNat_mul_one_add_zero (h : n < 2 ^ 53) : ofNat n * one + zero = ofNat n := by
  have hone : one = ofNat 1 := by decide +kernel
  have hzero : zero = ofNat 0 := by decide +kernel
  rw [hone, ofNat_mul h (by decide) ((Nat.mul_one n).trans_lt h), Nat.mul_one, hzero, ofNat_add h,
    Nat.add_zero]

/-- What reads as a rational number is the number of its parts. -/
theorem ratio_of_reading {u : UnpackedFloat} {x : ℚ} (h : reading u = ((x : ℝ) : EReal)) :
    ratio u = x := by
  cases u with
  | infinity s =>
    cases s with
    | positive => exact absurd h (EReal.coe_ne_top _).symm
    | negative => exact absurd h (EReal.coe_ne_bot _).symm
  | notANumber => exact Rat.cast_injective (EReal.coe_injective h)
  | zero s => exact Rat.cast_injective (EReal.coe_injective h)
  | finite s m e hm => cases s <;> exact Rat.cast_injective (EReal.coe_injective h)

/-- Parts of one number are the same, if both are canonical and the number is positive. -/
theorem Normal.eq_of_ratio {u : UnpackedFloat} {m : ℕ} {e : ℤ} (h : Normal m e) (hm : 0 < m)
    (hu : IsCanonical u) (hr : ratio u = m * 2 ^ e) : u = .finite .positive m e hm := by
  have hpos := parts_pos e hm
  cases u with
  | notANumber => exact absurd hr hpos.ne
  | zero s => exact absurd hr hpos.ne
  | infinity s => exact absurd hr hpos.ne
  | finite s n d hn =>
    cases s with
    | negative => exact absurd hr ((neg_neg_of_pos (parts_pos d hn)).trans hpos).ne
    | positive =>
      have hr : (n : ℚ) * 2 ^ d = m * 2 ^ e := hr
      obtain rfl : d = e := by
        rcases lt_trichotomy d e with hlt | heq | hgt
        · exact absurd hr (Canonical.number_lt hu h.canonical hlt).ne
        · exact heq
        · exact absurd hr (h.canonical.number_lt hu hgt).ne'
      obtain rfl : n = m := by exact_mod_cast mul_right_cancel₀ (two_zpow_pos d).ne' hr
      rfl

/-- A positive number has one value. -/
theorem Is.eq_of_denotes {x : ℚ} (h : Is w x) (hx : 0 < x) (hv : v.Denotes ((x : ℝ) : EReal)) :
    v = w := by
  obtain ⟨hnan, hnumber⟩ := hv
  have hcanonical := isCanonical_unpack v.bits.toBitVec
  have hpack := @pack_unpack Format.binary64 v.bits.toBitVec (by decide)
  rw [← isNaN_eq_isNaNBits, hnan, if_neg Bool.false_ne_true] at hpack
  rw [number, unpack_toFloat hnan] at hnumber
  cases h with
  | zero => exact absurd hx (lt_irrefl 0)
  | parts hm h =>
    rw [h.eq_of_ratio hm hcanonical (ratio_of_reading hnumber)] at hpack
    exact congrArg (fun b => Value.mk ⟨b⟩) hpack.symm

/-- But for a zero with a sign, a value that stands for a whole number is that number. -/
theorem Denotes.eq_ofNat (hv : v.Denotes n) (h : n < 2 ^ 53) (hpos : 0 < n) : v = ofNat n :=
  (is_ofNat_of_bits h).eq_of_denotes (by exact_mod_cast hpos) (by simpa using hv)

/-- A zero, whatever its sign, adds nothing. -/
theorem Denotes.zero_add {y : ℚ} (hv : v.Denotes 0) (hw : Is w y) : v + w = w := by
  obtain ⟨hnan, hnumber⟩ := hv
  obtain ⟨s, hs⟩ := eq_zero_of_reading (isNaN_toFloat hnan) hnumber
  have hadd : v + w = ofFloat (.ofModel (Float.Model.pack (UnpackedFloat.add Format.binary64
      v.toFloat.toModel.unpack w.toFloat.toModel.unpack))) := by
    have hadd : v + w = binary (· + ·) v w := rfl
    rw [hadd, binary, hnan, hw.isNaN_eq]
    rfl
  rw [hadd, hs]
  cases hw with
  | zero => cases s <;> rfl
  | parts hm h =>
    rw [h.unpack_toFloat hm]
    simp only [UnpackedFloat.add, h.ofFloat_pack hm]

theorem Denotes.add_ofNat (hv : v.Denotes n) (h : n + a < 2 ^ 53) :
    v + ofNat a = ofNat (n + a) := by
  rcases Nat.eq_zero_or_pos n with rfl | hpos
  · rw [Nat.zero_add]
    exact Denotes.zero_add (by simpa using hv) (is_ofNat_of_bits (by omega))
  · rw [hv.eq_ofNat (by omega) hpos, ofNat_add h]

end Exact

end Readout.Value
