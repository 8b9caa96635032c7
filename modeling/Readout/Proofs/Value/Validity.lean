import Readout.Operator.Reduction
import Readout.Proofs.Value.Doubles
import Readout.Window

/-!
# Validity of values

The invalid values are the NaNs whose payload is odd. No arithmetic on valid values makes one: a
NaN operand is passed on with its payload, a NaN that arises anew has an even one, and what is not
a NaN is no NaN as a word either. So sums, reductions and quotients of valid values are valid.
-/
namespace Readout.Value

open Float.Model Float.Model.UnpackedFloat

variable {a b v : Value}

theorem toNat_magnitude (v : Value) : (v.bits &&& magnitudeMask).toNat = v.bits.toNat % 2 ^ 63 := by
  rw [UInt64.toNat_and]
  exact Nat.and_two_pow_sub_one_eq_mod v.bits.toNat 63

theorem isNaN_iff : v.isNaN = true ↔ 2047 * 2 ^ 52 < v.bits.toNat % 2 ^ 63 := by
  rw [isNaN, decide_eq_true_iff, UInt64.lt_iff_toNat_lt, toNat_magnitude]
  rfl

theorem isValid_iff : v.isValid = true ↔ (v.isNaN = true → v.bits.toNat % 2 = 0) := by
  by_cases hnan : v.isNaN = true
  · have hodd : (v.bits &&& payloadMask &&& 1).toNat = v.bits.toNat % 2 := by
      rw [UInt64.toNat_and, UInt64.toNat_and]
      have hmask : v.bits.toNat &&& payloadMask.toNat = v.bits.toNat % 2 ^ 51 :=
        Nat.and_two_pow_sub_one_eq_mod v.bits.toNat 51
      have hone := Nat.and_one_is_mod (v.bits.toNat % 2 ^ 51)
      rw [hmask]
      change v.bits.toNat % 2 ^ 51 &&& 1 = _
      omega
    have hzero : v.bits &&& payloadMask &&& 1 = 0 ↔ v.bits.toNat % 2 = 0 := by
      rw [← UInt64.toNat_inj, hodd]
      rfl
    simp [isValid, payload, hnan, hzero]
  · simp [isValid, hnan]

theorem isValid_of_isNaN_eq_false (h : v.isNaN = false) : v.isValid = true :=
  isValid_iff.2 fun hnan => by rw [h] at hnan; cases hnan

theorem isValid_of_isNaN_imp (hodd : v.bits.toNat % 2 = b.bits.toNat % 2)
    (hnan : v.isNaN = true → b.isNaN = true) (hb : b.isValid = true) : v.isValid = true :=
  isValid_iff.2 fun h => hodd.trans (isValid_iff.1 hb (hnan h))

/-- A NaN is made quiet with its payload. -/
theorem isValid_quiet (hv : v.isValid = true) (hnan : v.isNaN = true) : v.quiet.isValid = true := by
  refine isValid_of_isNaN_imp ?_ (fun _ => hnan) hv
  have hbits : v.quiet.bits.toNat = v.bits.toNat ||| 2 ^ 51 := UInt64.toNat_or _ _
  rw [hbits, ← Nat.and_one_is_mod, Nat.and_or_distrib_right, ← Nat.and_one_is_mod]
  exact Nat.or_zero _

section Fields

theorem toNat_exponent (v : Value) :
    (@unpackExponent Format.binary64 v.bits.toBitVec).toNat = v.bits.toNat / 2 ^ 52 % 2 ^ 11 := by
  have hx : (@unpackExponent Format.binary64 v.bits.toBitVec).toNat =
      v.bits.toNat >>> 52 % 2 ^ 11 := rfl
  rw [hx, Nat.shiftRight_eq_div_pow]

theorem toNat_mantissa (v : Value) :
    (@unpackMantissa Format.binary64 v.bits.toBitVec).toNat = v.bits.toNat % 2 ^ 52 := by
  have hm : (@unpackMantissa Format.binary64 v.bits.toBitVec).toNat =
      v.bits.toNat >>> 0 % 2 ^ 52 := rfl
  rw [hm, Nat.shiftRight_zero]

/-- The words that are a NaN have the fields of one. -/
theorem isNaN_eq_isNaNBits (v : Value) : v.isNaN = @isNaNBits Format.binary64 v.bits.toBitVec := by
  have hx := toNat_exponent v
  have hm := toNat_mantissa v
  have hones : @unpackExponent Format.binary64 v.bits.toBitVec = -1#11 ↔
      v.bits.toNat / 2 ^ 52 % 2 ^ 11 = 2047 := by
    rw [← hx]
    exact BitVec.toNat_inj.symm
  have hzero : @unpackMantissa Format.binary64 v.bits.toBitVec = 0#52 ↔
      v.bits.toNat % 2 ^ 52 = 0 := by
    rw [← hm]
    exact BitVec.toNat_inj.symm
  have hfields : @isNaNBits Format.binary64 v.bits.toBitVec = true ↔
      v.bits.toNat / 2 ^ 52 % 2 ^ 11 = 2047 ∧ v.bits.toNat % 2 ^ 52 ≠ 0 := by
    rw [← hones, ne_eq, ← hzero]
    exact decide_eq_true_iff
  rw [Bool.eq_iff_iff, isNaN_iff, hfields]
  omega

theorem isNaN_unpack (b : BitVec Format.binary64.numBits) :
    (UnpackedFloat.unpack Format.binary64 b).isNaN = isNaNBits b := by
  unfold UnpackedFloat.unpack
  dsimp only
  split
  · next hones => split <;> simp_all [isNaNBits, UnpackedFloat.isNaN]
  · next hones =>
    have hno : isNaNBits b = false := decide_eq_false fun h => hones h.1
    split
    · split <;> exact hno.symm
    · exact hno.symm

/-- A word that is a NaN is a float that is one. -/
theorem isNaN_toBits {x : Float} (h : isNaN ⟨x.toBits⟩ = true) : x.isNaN = true := by
  have hunpack : x.isNaN = (UnpackedFloat.unpack Format.binary64 x.toBits.toBitVec).isNaN := rfl
  rwa [hunpack, isNaN_unpack, ← isNaN_eq_isNaNBits ⟨x.toBits⟩]

end Fields

theorem isValid_ofFloat (x : Float) : (ofFloat x).isValid = true := by
  rw [ofFloat]
  split
  · decide
  · next h =>
    exact isValid_of_isNaN_eq_false (Bool.eq_false_iff.2 fun hnan => h (isNaN_toBits hnan))

theorem isValid_unary (f : Float → Float) (ha : a.isValid = true) : (unary f a).isValid = true := by
  rw [unary]
  split
  · next h => exact isValid_quiet ha h
  · exact isValid_ofFloat _

theorem isValid_binary (f : Float → Float → Float) (ha : a.isValid = true) (hb : b.isValid = true) :
    (binary f a b).isValid = true := by
  rw [binary]
  split
  · next h => exact isValid_quiet ha h
  · split
    · next h => exact isValid_quiet hb h
    · exact isValid_ofFloat _

theorem isValid_add (ha : a.isValid = true) (hb : b.isValid = true) : (a + b).isValid = true :=
  isValid_binary _ ha hb

theorem isValid_sub (ha : a.isValid = true) (hb : b.isValid = true) : (a - b).isValid = true :=
  isValid_binary _ ha hb

theorem isValid_mul (ha : a.isValid = true) (hb : b.isValid = true) : (a * b).isValid = true :=
  isValid_binary _ ha hb

theorem isValid_div (ha : a.isValid = true) (hb : b.isValid = true) : (a / b).isValid = true :=
  isValid_binary _ ha hb

theorem isValid_sqrt (ha : a.isValid = true) : (sqrt a).isValid = true := isValid_unary _ ha

theorem isValid_ofNat (n : ℕ) : (ofNat n).isValid = true := by
  have hword : ofNat n = ofNat (n % 2 ^ 64) := by
    rw [ofNat, ofNat, ← UInt64.ofNat_mod_size]
  rw [hword]
  exact isValid_of_isNaN_eq_false (is_ofNat (Nat.mod_lt n (by decide))).isNaN_eq

end Readout.Value
