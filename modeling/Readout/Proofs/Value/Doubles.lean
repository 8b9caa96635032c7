import Readout.Proofs.Value.Mantissa
import Readout.Value.Basic

/-!
# Values as numbers

`Value.Is` names the number that a value stands for, from zero on and without subnormal doubles.
Sums, products and converted naturals stand for the nearest number of 53 bits (`Is.add`, `Is.mul`,
`is_ofNat`), and values are compared like the numbers that they stand for.
-/
namespace Readout.Value

open Float.Model Float.Model.UnpackedFloat Rounding

/-- Mantissa and exponent of a double that is neither subnormal nor infinite. -/
structure Normal (m : ℕ) (e : ℤ) : Prop where
  mantissa_ge : 2 ^ 52 ≤ m
  mantissa_lt : m < 2 ^ 53
  exponent_ge : -1074 ≤ e
  exponent_le : e ≤ 971

/-- The positive double with a mantissa and an exponent. -/
def ofParts (m : ℕ) (e : ℤ) (hm : 0 < m) : Value :=
  ⟨(Float.Model.pack (.finite .positive m e hm)).toBits⟩

section Pack

variable {m : ℕ} {e : ℤ} {s : Sign}

theorem Normal.log2_eq (h : Normal m e) : m.log2 = 52 := by
  have hlo := h.mantissa_ge
  exact (Nat.log2_eq_iff (by omega)).2 ⟨h.mantissa_ge, h.mantissa_lt⟩

theorem Normal.pack_eq (h : Normal m e) (hm : 0 < m) :
    UnpackedFloat.pack Format.binary64 (.finite s m e hm) =
      packComponents Format.binary64 s (BitVec.ofNat 11 (e + 1075).toNat) (BitVec.ofNat 52 m) := by
  have hlo := h.exponent_ge
  have hhi := h.exponent_le
  have hbiased : e + (Format.binary64.exponentBias : ℤ) + (52 : ℕ) = e + 1075 := by
    simp [Format.exponentBias]
    ring
  have hlog : m.log2 + 1 = Format.binary64.mantissaBits := by
    rw [h.log2_eq]
    rfl
  have hfinite : ¬ 2 ^ 11 ≤ (e + 1075).toNat + 1 := by omega
  simp only [UnpackedFloat.pack, hbiased, if_neg hfinite, if_pos hlog]

theorem Normal.toNat_exponent (h : Normal m e) :
    (BitVec.ofNat 11 (e + 1075).toNat).toNat = (e + 1075).toNat := by
  have hlo := h.exponent_ge
  have hhi := h.exponent_le
  rw [BitVec.toNat_ofNat]
  omega

theorem Normal.toNat_mantissa (h : Normal m e) : (BitVec.ofNat 52 m).toNat = m - 2 ^ 52 := by
  have hlo := h.mantissa_ge
  have hhi := h.mantissa_lt
  rw [BitVec.toNat_ofNat]
  omega

theorem Normal.unpack_pack (h : Normal m e) (hm : 0 < m) :
    UnpackedFloat.unpack Format.binary64 (UnpackedFloat.pack Format.binary64 (.finite s m e hm)) =
      .finite s m e hm := by
  have hlo := h.exponent_ge
  have hhi := h.exponent_le
  have hmlo := h.mantissa_ge
  have hx := h.toNat_exponent
  have hones : BitVec.ofNat 11 (e + 1075).toNat ≠ -1#11 := by
    intro h
    have hnat := congrArg BitVec.toNat h
    rw [hx] at hnat
    change _ = 2047 at hnat
    omega
  have hzero : BitVec.ofNat 11 (e + 1075).toNat ≠ 0#11 := by
    intro h
    have hnat := congrArg BitVec.toNat h
    rw [hx] at hnat
    change _ = 0 at hnat
    omega
  have hmant : (1#1 ++ BitVec.ofNat 52 m).toNat = m := by
    rw [BitVec.toNat_append, ← Nat.shiftLeft_add_eq_or_of_lt (BitVec.isLt _), h.toNat_mantissa]
    change 1 <<< 52 + _ = _
    omega
  rw [h.pack_eq]
  unfold UnpackedFloat.unpack
  simp only [unpackMantissa_packComponents, unpackExponent_packComponents,
    unpackSign_packComponents, Sign.ofBitVec_toBitVec, hones, hzero, if_false, hmant, hx]
  congr 1
  simp [Format.exponentBias]
  omega

theorem Normal.toNat_bits (h : Normal m e) (hm : 0 < m) :
    (ofParts m e hm).bits.toNat = (e + 1075).toNat * 2 ^ 52 + (m - 2 ^ 52) := by
  have hbits : (ofParts m e hm).bits.toNat =
      (UnpackedFloat.pack Format.binary64 (.finite .positive m e hm)).toNat := rfl
  have hx : (0#1 ++ BitVec.ofNat 11 (e + 1075).toNat).toNat = (e + 1075).toNat := by
    rw [BitVec.toNat_append, ← Nat.shiftLeft_add_eq_or_of_lt (BitVec.isLt _), h.toNat_exponent]
    change 0 <<< 11 + _ = _
    omega
  rw [hbits, h.pack_eq, packComponents, BitVec.toNat_append,
    ← Nat.shiftLeft_add_eq_or_of_lt (BitVec.isLt _), h.toNat_mantissa, Nat.shiftLeft_eq]
  exact congrArg (· * 2 ^ 52 + (m - 2 ^ 52)) hx

theorem Normal.isNaN_ofParts (h : Normal m e) (hm : 0 < m) : (ofParts m e hm).isNaN = false := by
  have hhi := h.exponent_le
  have hmhi := h.mantissa_lt
  have hbits := h.toNat_bits hm
  rw [isNaN, decide_eq_false_iff_not, UInt64.lt_iff_toNat_lt, UInt64.toNat_and]
  have hand := Nat.and_le_left (n := (ofParts m e hm).bits.toNat) (m := magnitudeMask.toNat)
  have hmask : exponentMask.toNat = 2047 * 2 ^ 52 := rfl
  omega

theorem Normal.unpack_toFloat (h : Normal m e) (hm : 0 < m) :
    (ofParts m e hm).toFloat.toModel.unpack = .finite .positive m e hm := by
  have hpack : (ofParts m e hm).toFloat.toModel.unpack = UnpackedFloat.unpack Format.binary64
      (UnpackedFloat.pack Format.binary64 (UnpackedFloat.unpack Format.binary64
        (UnpackedFloat.pack Format.binary64 (.finite .positive m e hm)))) := rfl
  rw [hpack, h.unpack_pack hm, h.unpack_pack hm]

theorem Normal.ofFloat_pack (h : Normal m e) (hm : 0 < m) :
    ofFloat (.ofModel (Float.Model.pack (.finite .positive m e hm))) = ofParts m e hm := by
  have hnan : Float.isNaN (.ofModel (Float.Model.pack (.finite .positive m e hm))) =
      (UnpackedFloat.unpack Format.binary64
        (UnpackedFloat.pack Format.binary64 (.finite .positive m e hm))).isNaN := rfl
  rw [ofFloat, hnan, h.unpack_pack hm]
  rfl

theorem Normal.number_pos (h : Normal m e) : (0 : ℚ) < m * 2 ^ e := by
  have hm : 0 < m := Nat.lt_of_lt_of_le (by decide) h.mantissa_ge
  have he := two_zpow_pos e
  positivity

theorem Normal.of_rounded {q : ℚ} {b : ℤ} (h : Rounded q b m e)
    (hlo : -1074 ≤ b - 52) (hhi : b < 1023) : Normal m e := by
  have hge := h.exponent_ge
  have hle := h.exponent_le
  exact ⟨h.mantissa_ge, h.mantissa_lt, by omega, by omega⟩

end Pack

/-- The value stands for the number. -/
inductive Is : Value → ℚ → Prop
  | zero : Is Value.zero 0
  | parts {m : ℕ} {e : ℤ} (hm : 0 < m) (h : Normal m e) : Is (ofParts m e hm) (m * 2 ^ e)

namespace Is

variable {a b : Value} {x y : ℚ}

theorem isNaN_eq (h : Is a x) : a.isNaN = false := by
  cases h with
  | zero => rfl
  | parts hm h => exact h.isNaN_ofParts hm

theorem nonneg (h : Is a x) : 0 ≤ x := by
  cases h with
  | zero => exact le_refl 0
  | parts hm h => exact h.number_pos.le

theorem nearest_eq (h : Is a x) : nearest x = x := by
  cases h with
  | zero => exact nearest_zero
  | parts hm h => exact nearest_of_bits h.mantissa_lt _

theorem of_rounded {q : ℚ} {b e : ℤ} {m : ℕ} (h : Rounded q b m e) (hm : 0 < m)
    (hlo : -1074 ≤ b - 52) (hhi : b < 1023) :
    Is (ofFloat (.ofModel (Float.Model.pack (.finite .positive m e hm)))) (nearest q) := by
  have hnormal := Normal.of_rounded h hlo hhi
  rw [hnormal.ofFloat_pack hm, ← h.number_eq]
  exact parts hm hnormal

end Is

theorem log2_add_lt {m : ℕ} {e k : ℤ} (hm : 0 < m) (h : (m : ℚ) * 2 ^ e < 2 ^ k) :
    m.log2 + e < k := by
  have hlog : (2 : ℚ) ^ m.log2 ≤ m := by exact_mod_cast Nat.log2_self_le hm.ne'
  have hlt : (2 : ℚ) ^ (e + m.log2) < 2 ^ k := by
    rw [two_zpow_add, mul_comm]
    exact (mul_le_mul_of_nonneg_right hlog (two_zpow_pos e).le).trans_lt h
  rw [zpow_lt_zpow_iff_right₀ (by norm_num)] at hlt
  omega

theorem le_log2_add {m : ℕ} {e k : ℤ} (h : (2 : ℚ) ^ k ≤ m * 2 ^ e) : k ≤ m.log2 + e := by
  have hlog : (m : ℚ) < 2 ^ (m.log2 + 1) := by exact_mod_cast Nat.lt_log2_self
  have hlt : (2 : ℚ) ^ k < 2 ^ (e + (m.log2 + 1 : ℕ)) := by
    rw [two_zpow_add, mul_comm (2 ^ e)]
    exact h.trans_lt (mul_lt_mul_of_pos_right hlog (two_zpow_pos e))
  rw [zpow_lt_zpow_iff_right₀ (by norm_num)] at hlt
  omega

theorem is_ofNat {n : ℕ} (h : n < 2 ^ 64) : Is (ofNat n) (nearest n) := by
  have hnat : (UInt64.ofNat n).toNat = n := UInt64.toNat_ofNat_of_lt' h
  have hvalue : ofNat n = ⟨(Float.Model.pack (UnpackedFloat.normalize Format.binary64
      ((UInt64.ofNat n).toNat : ℤ) 0 .positive)).toBits⟩ := rfl
  rw [hnat] at hvalue
  rcases Nat.eq_zero_or_pos n with rfl | hpos
  · rw [Nat.cast_zero, nearest_zero]
    exact .zero
  · have hlog : n.log2 < 64 := (Nat.log2_lt hpos.ne').2 h
    obtain ⟨m, e, hm, hu, hr⟩ := rounded_round (e := 0) hpos (by omega)
    have hgt : compare (n : ℤ) 0 = .gt := Int.compare_eq_gt.2 (by omega)
    rw [UnpackedFloat.normalize, hgt] at hvalue
    simp only [Int.toNat_natCast, hu] at hvalue
    have his := Is.parts hm (Normal.of_rounded hr (by omega) (by omega))
    rw [hr.number_eq, zpow_zero, mul_one] at his
    rw [hvalue]
    exact his

section Arithmetic

variable {a b : Value} {x y : ℚ}

theorem add_eq (ha : Is a x) (hb : Is b y) : a + b = ofFloat (.ofModel (Float.Model.pack
    (UnpackedFloat.add Format.binary64 a.toFloat.toModel.unpack b.toFloat.toModel.unpack))) := by
  have hadd : a + b = binary (· + ·) a b := rfl
  rw [hadd, binary, ha.isNaN_eq, hb.isNaN_eq]
  rfl

theorem mul_eq (ha : Is a x) (hb : Is b y) : a * b = ofFloat (.ofModel (Float.Model.pack
    (UnpackedFloat.mul Format.binary64 a.toFloat.toModel.unpack b.toFloat.toModel.unpack))) := by
  have hmul : a * b = binary (· * ·) a b := rfl
  rw [hmul, binary, ha.isNaN_eq, hb.isNaN_eq]
  rfl

theorem unpack_zero : zero.toFloat.toModel.unpack = .zero .positive := by
  rfl

theorem ofFloat_zero : ofFloat (.ofModel (Float.Model.pack (.zero .positive))) = zero := by
  rfl

theorem decreaseExponent_value (m : ℕ) {e t : ℤ} (h : t ≤ e) :
    ((decreaseExponent m e t).1 : ℚ) * 2 ^ t = m * 2 ^ e := by
  obtain ⟨k, rfl⟩ := Int.le.dest h
  have hk : (t + k - t : ℤ).toNat = k := by omega
  rw [decreaseExponent, hk, two_zpow_add, Nat.shiftLeft_eq]
  push_cast
  ring

theorem le_decreaseExponent (m : ℕ) (e t : ℤ) : m ≤ (decreaseExponent m e t).1 := by
  rw [decreaseExponent, Nat.shiftLeft_eq]
  exact Nat.le_mul_of_pos_right m (Nat.two_pow_pos _)

theorem Normal.is_add {m n : ℕ} {e d : ℤ} (h : Normal m e) (h' : Normal n d) (hm : 0 < m)
    (hn : 0 < n) (hsum : (m : ℚ) * 2 ^ e + n * 2 ^ d < 2 ^ (1023 : ℤ)) :
    Is (ofFloat (.ofModel (Float.Model.pack (UnpackedFloat.add Format.binary64
      (.finite .positive m e hm) (.finite .positive n d hn)))))
      (nearest (m * 2 ^ e + n * 2 ^ d)) := by
  have hmlo := h.mantissa_ge
  have hge := h.exponent_ge
  have hge' := h'.exponent_ge
  have hle := le_decreaseExponent m e (min e d)
  -- the mantissas are brought to the smaller exponent, where their sum `k` is exact
  obtain ⟨k, hk⟩ : ∃ k, (decreaseExponent m e (min e d)).1 +
    (decreaseExponent n d (min e d)).1 = k := ⟨_, rfl⟩
  have hexact : (k : ℚ) * 2 ^ min e d = m * 2 ^ e + n * 2 ^ d := by
    rw [← hk, Nat.cast_add, add_mul, decreaseExponent_value m (min_le_left e d),
      decreaseExponent_value n (min_le_right e d)]
  have hpos : 0 < k := by omega
  have hlog : 52 ≤ k.log2 := (Nat.le_log2 hpos.ne').2 (by omega)
  rw [← hexact] at hsum ⊢
  have htop := log2_add_lt hpos hsum
  obtain ⟨m', e', hm', hu, hr⟩ := rounded_round (e := min e d) hpos (by omega)
  have hnormalize : UnpackedFloat.normalize Format.binary64 (k : ℤ) (min e d) .positive =
      .finite .positive m' e' hm' := by
    have hgt : compare (k : ℤ) 0 = .gt := Int.compare_eq_gt.2 (by omega)
    rw [UnpackedFloat.normalize, hgt]
    simp only [Int.toNat_natCast, hu]
  have hadd : UnpackedFloat.add Format.binary64 (.finite .positive m e hm)
      (.finite .positive n d hn) = .finite .positive m' e' hm' := by
    rw [← hnormalize, ← hk]
    rfl
  rw [hadd]
  exact .of_rounded hr hm' (by omega) htop

theorem Normal.is_mul {m n : ℕ} {e d : ℤ} (h : Normal m e) (hm : 0 < m) (hn : 0 < n)
    (hlo : 2 ^ (-1022 : ℤ) ≤ (m : ℚ) * 2 ^ e * (n * 2 ^ d))
    (hhi : (m : ℚ) * 2 ^ e * (n * 2 ^ d) < 2 ^ (1023 : ℤ)) :
    Is (ofFloat (.ofModel (Float.Model.pack (UnpackedFloat.mul Format.binary64
      (.finite .positive m e hm) (.finite .positive n d hn)))))
      (nearest (m * 2 ^ e * (n * 2 ^ d))) := by
  have hexact : ((m * n : ℕ) : ℚ) * 2 ^ (e + d) = m * 2 ^ e * (n * 2 ^ d) := by
    rw [zpow_add₀ (by norm_num)]
    push_cast
    ring
  have hpos : 0 < m * n := Nat.mul_pos hm hn
  have hlog : 52 ≤ (m * n).log2 :=
    (Nat.le_log2 hpos.ne').2 (h.mantissa_ge.trans (Nat.le_mul_of_pos_right m hn))
  rw [← hexact] at hlo hhi ⊢
  have htop := log2_add_lt hpos hhi
  have hbottom := le_log2_add hlo
  obtain ⟨m', e', hm', hu, hr⟩ :=
    rounded_roundWithAccuracy (e := e + d) (stands_exact _) hlog (by omega)
  have hmul : UnpackedFloat.mul Format.binary64 (.finite .positive m e hm)
      (.finite .positive n d hn) = .finite .positive m' e' hm' := hu
  rw [hmul]
  exact .of_rounded hr hm' (by omega) (by omega)

/-- Sums that stay far from the largest double are nearest to the exact ones. -/
theorem Is.add (ha : Is a x) (hb : Is b y) (hsum : x + y < 2 ^ (1023 : ℤ)) :
    Is (a + b) (nearest (x + y)) := by
  rw [add_eq ha hb]
  cases ha with
  | zero =>
    rw [zero_add, hb.nearest_eq]
    cases hb with
    | zero => exact .zero
    | parts hn h' =>
      rw [unpack_zero, h'.unpack_toFloat hn]
      simp only [UnpackedFloat.add, h'.ofFloat_pack hn]
      exact .parts hn h'
  | parts hm h =>
    cases hb with
    | zero =>
      rw [unpack_zero, h.unpack_toFloat hm, add_zero, nearest_of_bits h.mantissa_lt]
      simp only [UnpackedFloat.add, h.ofFloat_pack hm]
      exact .parts hm h
    | parts hn h' =>
      rw [h.unpack_toFloat hm, h'.unpack_toFloat hn]
      exact h.is_add h' hm hn hsum

/-- Products that stay far from the largest double and from subnormal ones are nearest to the
exact ones. -/
theorem Is.mul (ha : Is a x) (hb : Is b y) (hlo : x * y = 0 ∨ 2 ^ (-1022 : ℤ) ≤ x * y)
    (hhi : x * y < 2 ^ (1023 : ℤ)) : Is (a * b) (nearest (x * y)) := by
  rw [mul_eq ha hb]
  cases ha with
  | zero =>
    rw [zero_mul, nearest_zero]
    cases hb with
    | zero => exact .zero
    | @parts n d hn h' =>
      have hmul : UnpackedFloat.mul Format.binary64 (.zero .positive)
          (.finite .positive n d hn) = .zero .positive := rfl
      rw [unpack_zero, h'.unpack_toFloat hn, hmul, ofFloat_zero]
      exact .zero
  | @parts m e hm h =>
    cases hb with
    | zero =>
      have hmul : UnpackedFloat.mul Format.binary64 (.finite .positive m e hm)
          (.zero .positive) = .zero .positive := rfl
      rw [unpack_zero, h.unpack_toFloat hm, mul_zero, nearest_zero, hmul, ofFloat_zero]
      exact .zero
    | parts hn h' =>
      have hpositive := mul_pos h.number_pos h'.number_pos
      rw [h.unpack_toFloat hm, h'.unpack_toFloat hn]
      exact h.is_mul hm hn (hlo.resolve_left hpositive.ne') hhi

end Arithmetic

/-- Mantissa and exponent as a word keeps them: the leading bit is set or the exponent is least. -/
structure Canonical (m : ℕ) (e : ℤ) : Prop where
  mantissa_lt : m < 2 ^ 53
  exponent_ge : -1074 ≤ e
  leading : -1074 < e → 2 ^ 52 ≤ m

section Canonical

variable {m n : ℕ} {e d : ℤ}

theorem Normal.canonical (h : Normal m e) : Canonical m e :=
  ⟨h.mantissa_lt, h.exponent_ge, fun _ => h.mantissa_ge⟩

theorem Canonical.number_lt (h : Canonical m e) (h' : Canonical n d) (hlt : e < d) :
    (m : ℚ) * 2 ^ e < n * 2 ^ d := by
  have hge := h.exponent_ge
  have hm : (m : ℚ) < 2 ^ 53 := by exact_mod_cast h.mantissa_lt
  have hn : (2 : ℚ) ^ 52 ≤ n := by exact_mod_cast h'.leading (by omega)
  have hstep : (2 : ℚ) ^ e * 2 ≤ 2 ^ d := by
    rw [← zpow_add_one₀ (by norm_num)]
    exact zpow_le_zpow_right₀ (by norm_num) (by omega)
  have he := two_zpow_pos e
  calc (m : ℚ) * 2 ^ e < 2 ^ 53 * 2 ^ e := mul_lt_mul_of_pos_right hm he
    _ = 2 ^ 52 * (2 ^ e * 2) := by ring
    _ ≤ n * 2 ^ d := mul_le_mul hn hstep (by positivity) (by positivity)

theorem Canonical.compare_eq (h : Canonical m e) (h' : Canonical n d) :
    (compare e d).then (compare m n) = compare ((m : ℚ) * 2 ^ e) (n * 2 ^ d) := by
  rcases lt_trichotomy e d with hlt | rfl | hgt
  · rw [Int.compare_eq_lt.2 hlt, compare_lt_iff_lt.2 (h.number_lt h' hlt)]
    rfl
  · have he := two_zpow_pos e
    rw [(compare_eq_iff_eq (a := e)).2 rfl]
    rcases lt_trichotomy m n with hlt | rfl | hgt
    · rw [compare_lt_iff_lt.2 hlt, compare_lt_iff_lt.2 (by gcongr)]
      rfl
    · rw [compare_eq_iff_eq.2 rfl, compare_eq_iff_eq.2 rfl]
      rfl
    · rw [compare_gt_iff_gt.2 hgt, compare_gt_iff_gt.2 (by gcongr)]
      rfl
  · rw [Int.compare_eq_gt.2 hgt, compare_gt_iff_gt.2 (h'.number_lt h hgt)]
    rfl

end Canonical

section Order

variable {a b : Value} {x y : ℚ}

/-- A number has one representation. -/
theorem Is.unique (ha : Is a x) (hb : Is b y) (h : x = y) : a = b := by
  cases ha with
  | zero =>
    cases hb with
    | zero => rfl
    | parts hm hn => exact absurd h hn.number_pos.ne
  | @parts m e hm hn =>
    cases hb with
    | zero => exact absurd h hn.number_pos.ne'
    | @parts n d hm' hn' =>
      obtain rfl : e = d := by
        rcases lt_trichotomy e d with hlt | heq | hgt
        · exact absurd h (hn.canonical.number_lt hn'.canonical hlt).ne
        · exact heq
        · exact absurd h (hn'.canonical.number_lt hn.canonical hgt).ne'
      obtain rfl : m = n := by
        have hcast := mul_right_cancel₀ (two_zpow_pos e).ne' h
        exact_mod_cast hcast
      rfl

theorem Is.compare_eq (ha : Is a x) (hb : Is b y) :
    a.toFloat.toModel.unpack.compare b.toFloat.toModel.unpack = some (compare x y) := by
  cases ha with
  | zero =>
    cases hb with
    | zero => rfl
    | parts hn h' =>
      rw [unpack_zero, h'.unpack_toFloat hn, compare_lt_iff_lt.2 h'.number_pos]
      rfl
  | parts hm h =>
    cases hb with
    | zero =>
      rw [unpack_zero, h.unpack_toFloat hm, compare_gt_iff_gt.2 h.number_pos]
      rfl
    | parts hn h' =>
      rw [h.unpack_toFloat hm, h'.unpack_toFloat hn, ← h.canonical.compare_eq h'.canonical]
      rfl

theorem Is.below_iff (ha : Is a x) (hb : Is b y) : below a b = true ↔ x < y := by
  have hlt : below a b = (!a.isNaN && !b.isNaN &&
      decide (decide (a.toFloat.toModel.unpack.lt b.toFloat.toModel.unpack = true) = true)) := rfl
  rw [hlt, ha.isNaN_eq, hb.isNaN_eq, UnpackedFloat.lt, ha.compare_eq hb, ← compare_lt_iff_lt]
  simp

theorem Is.atMost_iff (ha : Is a x) (hb : Is b y) : atMost a b = true ↔ x ≤ y := by
  have hle : atMost a b = (!a.isNaN && !b.isNaN &&
      decide (decide (a.toFloat.toModel.unpack.le b.toFloat.toModel.unpack = true) = true)) := rfl
  rw [hle, ha.isNaN_eq, hb.isNaN_eq, UnpackedFloat.le, ha.compare_eq hb, ← compare_le_iff_le]
  cases compare x y <;> simp

end Order

section PowersOfTwo

theorem eq_ofParts {v : Value} {m : ℕ} {e : ℤ} (h : Normal m e) (hm : 0 < m)
    (hbits : v.bits.toNat = (e + 1075).toNat * 2 ^ 52 + (m - 2 ^ 52)) : v = ofParts m e hm := by
  have heq : v.bits = (ofParts m e hm).bits := by
    rw [← UInt64.toNat_inj, h.toNat_bits, hbits]
  exact congrArg mk heq

theorem is_powerOfTwo {n : ℕ} (h : n ≤ 1023) : Is (powerOfTwo n) (2 ^ n) := by
  have hnormal : Normal (2 ^ 52) (n - 52) := ⟨le_refl _, by decide, by omega, by omega⟩
  have hbits : (powerOfTwo n).bits.toNat = (1023 + n) * 2 ^ 52 := by
    rw [powerOfTwo, UInt64.toNat_shiftLeft, UInt64.toNat_ofNat_of_lt' (by
      change 1023 + n < 2 ^ 64
      omega)]
    change (1023 + n) <<< 52 % 2 ^ 64 = _
    rw [Nat.shiftLeft_eq]
    omega
  have hparts := eq_ofParts hnormal (by decide) (v := powerOfTwo n) (by rw [hbits]; omega)
  have hnumber : ((2 ^ 52 : ℕ) : ℚ) * 2 ^ ((n : ℤ) - 52) = 2 ^ n := by
    rw [zpow_sub₀ (by norm_num), zpow_natCast]
    push_cast
    ring
  rw [hparts, ← hnumber]
  exact .parts (by decide) hnormal

end PowersOfTwo

section Counting

theorem is_ofNat_of_bits {n : ℕ} (h : n < 2 ^ 53) : Is (ofNat n) n := by
  have his := is_ofNat (n := n) (by omega)
  have hnearest := nearest_of_bits h 0
  rw [zpow_zero, mul_one] at hnearest
  rwa [hnearest] at his

/-- Counting does not round as long as the mantissa holds the count. -/
theorem ofNat_succ {n : ℕ} (h : n + 1 < 2 ^ 53) : ofNat n + one = ofNat (n + 1) := by
  have hone : Is one 1 := by
    have hpower := is_powerOfTwo (n := 0) (by decide)
    rwa [pow_zero] at hpower
  have hlt : (n : ℚ) + 1 < 2 ^ (1023 : ℤ) := by
    have hnat : (n : ℚ) + 1 < 2 ^ (53 : ℤ) := by exact_mod_cast h
    exact hnat.trans (zpow_lt_zpow_right₀ (by norm_num) (by decide))
  have hsum := (is_ofNat_of_bits (by omega)).add hone hlt
  refine hsum.unique (is_ofNat_of_bits h) ?_
  have hnearest := nearest_of_bits h 0
  rw [zpow_zero, mul_one, Nat.cast_add, Nat.cast_one] at hnearest
  rw [hnearest, Nat.cast_add, Nat.cast_one]

end Counting

end Readout.Value
