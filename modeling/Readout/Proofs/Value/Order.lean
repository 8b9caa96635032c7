import Mathlib.Data.EReal.Basic
import Readout.Proofs.Value.Validity

/-!
# The order of values

Every value that is no NaN stands for an extended real number: a subnormal double, a negative one
and an infinity too. Values are compared like the numbers that they stand for (`below_iff_number`,
`atMost_iff_number`), although they are compared by sign, exponent and mantissa, and the two zeros
are the values that stand for zero.
-/
namespace Readout.Value

open Float.Model Float.Model.UnpackedFloat Rounding

section Unpacked

def IsCanonical : UnpackedFloat → Prop
  | .finite _ m e _ => Canonical m e
  | _ => True

theorem isCanonical_unpack (b : BitVec Format.binary64.numBits) :
    IsCanonical (UnpackedFloat.unpack Format.binary64 b) := by
  have hx : (unpackExponent b).toNat < 2 ^ 11 := BitVec.isLt _
  have hm : (unpackMantissa b).toNat < 2 ^ 52 := BitVec.isLt _
  have hbias : (Format.binary64.exponentBias : ℤ) +
      (Format.binary64.mantissaBitsWithoutImplicit : ℤ) = 1075 := by
    simp [Format.exponentBias]
  unfold UnpackedFloat.unpack
  simp only [hbias]
  split
  · split <;> trivial
  · split
    · next hzero =>
      split
      · trivial
      · have hzero := congrArg BitVec.toNat hzero
        simp only [IsCanonical]
        rw [hzero]
        exact ⟨by omega, by decide, fun h => absurd h (by decide)⟩
    · next hzero =>
      have hpos : (unpackExponent b).toNat ≠ 0 := fun h => hzero (BitVec.eq_of_toNat_eq h)
      have hlead : (1#1 ++ unpackMantissa b).toNat = 2 ^ 52 + (unpackMantissa b).toNat := by
        rw [BitVec.toNat_append, ← Nat.shiftLeft_add_eq_or_of_lt (BitVec.isLt _)]
        rfl
      simp only [IsCanonical]
      exact ⟨by omega, by omega, fun _ => by omega⟩

/-- The number that a finite double stands for. -/
def ratio : UnpackedFloat → ℚ
  | .finite .positive m e _ => m * 2 ^ e
  | .finite .negative m e _ => -(m * 2 ^ e)
  | _ => 0

/-- The number that a double stands for, zero for a NaN. -/
noncomputable def reading : UnpackedFloat → EReal
  | .infinity .positive => ⊤
  | .infinity .negative => ⊥
  | u => ((ratio u : ℝ) : EReal)

theorem parts_pos {m : ℕ} (e : ℤ) (hm : 0 < m) : (0 : ℚ) < m * 2 ^ e :=
  mul_pos (Nat.cast_pos.2 hm) (two_zpow_pos e)

theorem compare_ratio {u w : UnpackedFloat} (hu : IsCanonical u) (hw : IsCanonical w)
    (huf : u.isFinite = true) (hwf : w.isFinite = true) :
    u.compare w = some (compare (ratio u) (ratio w)) := by
  have hlt : ∀ {x y : ℚ}, x < y → some .lt = some (compare x y) := fun h => by
    rw [compare_lt_iff_lt.2 h]
  have hgt : ∀ {x y : ℚ}, y < x → some .gt = some (compare x y) := fun h => by
    rw [compare_gt_iff_gt.2 h]
  match u, w with
  | .notANumber, _ | .infinity _, _ => cases huf
  | _, .notANumber | _, .infinity _ => cases hwf
  | .zero _, .zero _ => rfl
  | .zero _, .finite .positive _ e hm => exact hlt (parts_pos e hm)
  | .zero _, .finite .negative _ e hm => exact hgt (neg_neg_of_pos (parts_pos e hm))
  | .finite .positive _ e hm, .zero _ => exact hgt (parts_pos e hm)
  | .finite .negative _ e hm, .zero _ => exact hlt (neg_neg_of_pos (parts_pos e hm))
  | .finite .positive _ e hm, .finite .negative _ d hn =>
    exact hgt ((neg_neg_of_pos (parts_pos d hn)).trans (parts_pos e hm))
  | .finite .negative _ e hm, .finite .positive _ d hn =>
    exact hlt ((neg_neg_of_pos (parts_pos e hm)).trans (parts_pos d hn))
  | .finite .positive _ _ _, .finite .positive _ _ _ => exact congrArg some (hu.compare_eq hw)
  | .finite .negative m e _, .finite .negative n d _ =>
    have hswap : compare (-(m * 2 ^ e : ℚ)) (-(n * 2 ^ d)) =
        (compare (m * 2 ^ e : ℚ) (n * 2 ^ d)).swap := by
      rcases lt_trichotomy (m * 2 ^ e : ℚ) (n * 2 ^ d) with h | h | h
      · simp [compare_lt_iff_lt.2 h, compare_gt_iff_gt.2 (neg_lt_neg h)]
      · simp [compare_eq_iff_eq.2 h, compare_eq_iff_eq.2 (congrArg _ h)]
      · simp [compare_gt_iff_gt.2 h, compare_lt_iff_lt.2 (neg_lt_neg h)]
    exact congrArg some ((congrArg Ordering.swap (hu.compare_eq hw)).trans hswap.symm)

theorem compare_coe (x y : ℚ) : compare ((x : ℝ) : EReal) ((y : ℝ) : EReal) = compare x y := by
  rw [← cmp_eq_compare, ← cmp_eq_compare]
  exact (EReal.coe_strictMono.comp Rat.cast_strictMono).cmp_map_eq x y

theorem compare_reading {u w : UnpackedFloat} (hu : IsCanonical u) (hw : IsCanonical w)
    (hun : u.isNaN = false) (hwn : w.isNaN = false) :
    u.compare w = some (compare (reading u) (reading w)) := by
  have hlt : ∀ {x y : EReal}, x < y → some .lt = some (compare x y) := fun h => by
    rw [compare_lt_iff_lt.2 h]
  have hgt : ∀ {x y : EReal}, y < x → some .gt = some (compare x y) := fun h => by
    rw [compare_gt_iff_gt.2 h]
  have hbot : ∀ x : ℚ, (⊥ : EReal) < (x : ℝ) := fun x => EReal.bot_lt_coe x
  have htop : ∀ x : ℚ, ((x : ℝ) : EReal) < ⊤ := fun x => EReal.coe_lt_top x
  match u, w with
  | .notANumber, _ => cases hun
  | _, .notANumber => cases hwn
  | .infinity .positive, .infinity .positive | .infinity .negative, .infinity .negative =>
    rw [compare_eq_iff_eq.2 rfl]
    rfl
  | .infinity .negative, .infinity .positive => exact hlt bot_lt_top
  | .infinity .positive, .infinity .negative => exact hgt bot_lt_top
  | .infinity .positive, .zero _ | .infinity .positive, .finite .. => exact hgt (htop _)
  | .infinity .negative, .zero _ | .infinity .negative, .finite .. => exact hlt (hbot _)
  | .zero _, .infinity .positive | .finite .positive .., .infinity .positive
  | .finite .negative .., .infinity .positive => exact hlt (htop _)
  | .zero _, .infinity .negative | .finite .positive .., .infinity .negative
  | .finite .negative .., .infinity .negative => exact hgt (hbot _)
  | .zero _, .zero _ | .zero _, .finite .. | .finite .., .zero _ | .finite .., .finite .. =>
    exact (compare_ratio hu hw rfl rfl).trans (congrArg some (compare_coe _ _).symm)

theorem eq_zero_of_reading {u : UnpackedFloat} (hnan : u.isNaN = false) (h : reading u = 0) :
    ∃ s, u = .zero s := by
  match u with
  | .notANumber => cases hnan
  | .zero s => exact ⟨s, rfl⟩
  | .infinity .positive => exact absurd h EReal.top_ne_zero
  | .infinity .negative => exact absurd h EReal.bot_ne_zero
  | .finite .positive _ e hm =>
    exact absurd (Rat.cast_eq_zero.1 (EReal.coe_eq_zero.1 h)) (parts_pos e hm).ne'
  | .finite .negative _ e hm =>
    exact absurd (Rat.cast_eq_zero.1 (EReal.coe_eq_zero.1 h)) (neg_neg_of_pos (parts_pos e hm)).ne

end Unpacked

section Number

/-- The number that a value stands for, zero for a NaN. -/
noncomputable def number (v : Value) : EReal := reading v.toFloat.toModel.unpack

/-- The value is no NaN and stands for the number. -/
def Denotes (v : Value) (x : EReal) : Prop := v.isNaN = false ∧ v.number = x

variable {a b v : Value}

/-- A word that is no NaN is a float with the same fields. -/
theorem unpack_toFloat (h : v.isNaN = false) :
    v.toFloat.toModel.unpack = UnpackedFloat.unpack Format.binary64 v.bits.toBitVec := by
  have hpack := @pack_unpack Format.binary64 v.bits.toBitVec (by decide)
  rw [← isNaN_eq_isNaNBits, h, if_neg Bool.false_ne_true] at hpack
  exact congrArg (UnpackedFloat.unpack Format.binary64) hpack

theorem isNaN_toFloat (h : v.isNaN = false) : v.toFloat.toModel.unpack.isNaN = false := by
  rw [unpack_toFloat h, isNaN_unpack, ← isNaN_eq_isNaNBits, h]

theorem isZero_iff_denotes : v.isZero = true ↔ v.Denotes 0 := by
  have hzero : v.isZero = true ↔ v.bits.toNat % 2 ^ 63 = 0 := by
    rw [isZero, beq_iff_eq, ← UInt64.toNat_inj, toNat_magnitude]
    rfl
  have hx := toNat_exponent v
  have hm := toNat_mantissa v
  rw [hzero]
  constructor
  · intro h
    have hnan : v.isNaN = false := Bool.eq_false_iff.2 fun hnan => by
      have hlt := isNaN_iff.1 hnan
      omega
    have hexponent : @unpackExponent Format.binary64 v.bits.toBitVec = 0#11 :=
      BitVec.eq_of_toNat_eq (hx.trans (by change _ = 0; omega))
    have hmantissa : @unpackMantissa Format.binary64 v.bits.toBitVec = 0#52 :=
      BitVec.eq_of_toNat_eq (hm.trans (by change _ = 0; omega))
    refine ⟨hnan, ?_⟩
    rw [number, unpack_toFloat hnan, UnpackedFloat.unpack]
    simp [hexponent, hmantissa, reading, ratio]
  · rintro ⟨hnan, hnumber⟩
    obtain ⟨s, hs⟩ := eq_zero_of_reading (isNaN_toFloat hnan) hnumber
    rw [unpack_toFloat hnan] at hs
    unfold UnpackedFloat.unpack at hs
    dsimp only at hs
    split at hs
    · split at hs <;> cases hs
    · split at hs
      · next hexponent =>
        split at hs
        · next hmantissa =>
          have hexponent := hx.symm.trans (congrArg BitVec.toNat hexponent)
          have hmantissa := hm.symm.trans (congrArg BitVec.toNat hmantissa)
          change _ = 0 at hexponent hmantissa
          omega
        · cases hs
      · cases hs

theorem compare_toFloat (ha : a.isNaN = false) (hb : b.isNaN = false) :
    a.toFloat.toModel.unpack.compare b.toFloat.toModel.unpack =
      some (compare a.number b.number) :=
  compare_reading (isCanonical_unpack _) (isCanonical_unpack _) (isNaN_toFloat ha)
    (isNaN_toFloat hb)

theorem below_iff_number :
    below a b = true ↔ a.isNaN = false ∧ b.isNaN = false ∧ a.number < b.number := by
  have hlt : below a b = (!a.isNaN && !b.isNaN &&
      decide (decide (a.toFloat.toModel.unpack.lt b.toFloat.toModel.unpack = true) = true)) := rfl
  cases ha : a.isNaN
  · cases hb : b.isNaN
    · rw [hlt, ha, hb, UnpackedFloat.lt, compare_toFloat ha hb, ← compare_lt_iff_lt]
      simp
    · simp [below, hb]
  · simp [below, ha]

theorem atMost_iff_number :
    atMost a b = true ↔ a.isNaN = false ∧ b.isNaN = false ∧ a.number ≤ b.number := by
  have hle : atMost a b = (!a.isNaN && !b.isNaN &&
      decide (decide (a.toFloat.toModel.unpack.le b.toFloat.toModel.unpack = true) = true)) := rfl
  cases ha : a.isNaN
  · cases hb : b.isNaN
    · rw [hle, ha, hb, UnpackedFloat.le, compare_toFloat ha hb, ← compare_le_iff_le]
      cases compare a.number b.number <;> simp
    · simp [atMost, hb]
  · simp [atMost, ha]

theorem Is.number_eq {x : ℚ} (h : Is v x) : v.number = ((x : ℝ) : EReal) := by
  cases h with
  | zero => simp [number, unpack_zero, reading, ratio]
  | parts hm h => simp [number, h.unpack_toFloat hm, reading, ratio]

theorem number_ofNat {n : ℕ} (h : n < 2 ^ 53) : (ofNat n).number = n := by
  rw [(is_ofNat_of_bits h).number_eq]
  simp

theorem isNaN_ofNat {n : ℕ} (h : n < 2 ^ 53) : (ofNat n).isNaN = false :=
  (is_ofNat_of_bits h).isNaN_eq

theorem denotes_ofNat {n : ℕ} (h : n < 2 ^ 53) : (ofNat n).Denotes n :=
  ⟨isNaN_ofNat h, number_ofNat h⟩

end Number

end Readout.Value
