import Mathlib
import Readout.Proofs.Value.Rounding

/-!
# Rounded mantissas

Arithmetic on doubles makes an exact mantissa first, shifts it until 53 bits are left, and rounds
it by the bits that it has lost. Two residual bits are kept of those (`Stands`), which is enough:
what comes out stands for the nearest number (`rounded_roundWithAccuracy`, `rounded_round`).
-/
namespace Readout.Rounding

open Float.Model Float.Model.UnpackedFloat

section Residue

/-- What the residual bits of a shifted mantissa tell about the number that was shifted. -/
def Stands (em : ExtendedMantissa) (x : ℚ) : Prop :=
  match em.roundBit, em.stickyBit with
  | false, false => x = em.mantissa
  | false, true => em.mantissa < x ∧ x < em.mantissa + 1 / 2
  | true, false => x = em.mantissa + 1 / 2
  | true, true => em.mantissa + 1 / 2 < x ∧ x < em.mantissa + 1

variable {em : ExtendedMantissa} {x : ℚ}

theorem stands_exact (m : ℕ) : Stands (.ofMantissaAndAccuracy m .exact) m := rfl

theorem mantissa_ofMantissaAndAccuracy (m : ℕ) (acc : Accuracy) :
    (ExtendedMantissa.ofMantissaAndAccuracy m acc).mantissa = m := by
  rcases acc with _ | (_ | _ | _) <;> rfl

theorem Stands.shiftRightOne (h : Stands em x) : Stands em.shiftRightOne (x / 2) := by
  -- the bit that is shifted out is the new round bit, the old residual bits make the sticky one
  obtain ⟨m, r, s⟩ := em
  have hm : ((m % 2 : ℕ) : ℚ) + 2 * ((m / 2 : ℕ) : ℚ) = m := by exact_mod_cast Nat.mod_add_div m 2
  rcases Nat.mod_two_eq_zero_or_one m with hr | hr <;> rw [hr] at hm <;> push_cast at hm <;>
    cases r <;> cases s <;> simp [Stands, ExtendedMantissa.shiftRightOne, hr] at h ⊢ <;>
    (try constructor) <;> linarith

theorem Stands.shiftRight (h : Stands em x) (k : ℕ) : Stands (em >>> k) (x / 2 ^ k) := by
  change Stands (k.repeat ExtendedMantissa.shiftRightOne em) _
  induction k with
  | zero => simpa [Nat.repeat] using h
  | succ k ih =>
    rw [Nat.repeat, pow_succ, ← div_div]
    exact ih.shiftRightOne

theorem Stands.floor (h : Stands em x) : ⌊x⌋ = em.mantissa := by
  obtain ⟨m, r, s⟩ := em
  cases r <;> cases s <;> simp only [Stands] at h <;> rw [Int.floor_eq_iff] <;> push_cast <;>
    constructor <;> linarith

theorem Stands.roundedMantissa (h : Stands em x) : (em.roundedMantissa : ℤ) = halfEven x := by
  have hfloor := h.floor
  obtain ⟨m, r, s⟩ := em
  rw [halfEven, hfloor]
  cases r <;> cases s <;> simp only [Stands] at h <;>
    simp only [ExtendedMantissa.roundedMantissa, ExtendedMantissa.accuracy,
      Accuracy.roundToNearestEven] <;>
    push_cast <;> split_ifs <;> first | rfl | (exfalso; linarith)

end Residue

section Round

variable {m : ℕ} {e : ℤ} {acc : Accuracy} {x : ℚ}

theorem targetExponent_eq (h : -1074 ≤ m.log2 + e - 52) :
    Format.binary64.targetExponent (totalExponent m e) = m.log2 + e - 52 := by
  simp only [Format.targetExponent, totalExponent, Format.mantissaBits, Format.minExponent]
  norm_num
  omega

theorem shift_exact (hm : m.log2 = 52) (he : -1074 ≤ e) :
    shiftToTargetExponent Format.binary64 m e .exact = (⟨m, false, false⟩, e) := by
  have ht : Format.binary64.targetExponent (totalExponent m e) = e := by
    rw [targetExponent_eq (by omega), hm]
    push_cast
    ring
  rw [shiftToTargetExponent, ht]
  simp [shiftToExponent, HShiftRight.hShiftRight, Nat.repeat,
    ExtendedMantissa.ofMantissaAndAccuracy]

theorem shift_carry (he : -1074 ≤ e) :
    shiftToTargetExponent Format.binary64 (2 ^ 53) e .exact = (⟨2 ^ 52, false, false⟩, e + 1) := by
  have ht : Format.binary64.targetExponent (totalExponent (2 ^ 53) e) = e + 1 := by
    rw [targetExponent_eq] <;> rw [Nat.log2_two_pow] <;> push_cast <;> omega
  rw [shiftToTargetExponent, ht]
  simp [shiftToExponent, HShiftRight.hShiftRight, Nat.repeat,
    ExtendedMantissa.ofMantissaAndAccuracy, ExtendedMantissa.shiftRightOne]

/-- Rounding shifts the mantissa to its grid, rounds it there, and shifts once more if that has
made it too long. -/
theorem roundWithAccuracy_eq {em em' : ExtendedMantissa} {e₁ e₂ : ℤ}
    (hfirst : shiftToTargetExponent Format.binary64 m e acc = (em, e₁))
    (hsecond : shiftToTargetExponent Format.binary64 em.roundedMantissa e₁ .exact = (em', e₂))
    (h : 0 < em'.mantissa) :
    roundWithAccuracy Format.binary64 .positive m e acc =
      .finite .positive em'.mantissa e₂ h := by
  simp only [roundWithAccuracy, hfirst, hsecond, dif_neg (Nat.ne_of_gt h)]

/-- A mantissa of 53 bits that stands for the number nearest to one with leading bit `b`, and its
exponent. -/
structure Rounded (q : ℚ) (b : ℤ) (m' : ℕ) (e' : ℤ) : Prop where
  mantissa_ge : 2 ^ 52 ≤ m'
  mantissa_lt : m' < 2 ^ 53
  exponent_ge : b - 52 ≤ e'
  exponent_le : e' ≤ b - 51
  number_eq : (m' : ℚ) * 2 ^ e' = nearest q

/-- The mantissa may have lost the fraction of the number that it is made from. -/
theorem log2_bounds (hx : ⌊x⌋ = m) (hm : 52 ≤ m.log2) :
    (2 : ℚ) ^ 52 * 2 ^ (m.log2 - 52) ≤ x ∧ x < 2 ^ 53 * 2 ^ (m.log2 - 52) := by
  have hpos : m ≠ 0 := by
    rintro rfl
    simp at hm
  obtain ⟨hlo, hhi⟩ := Int.floor_eq_iff.1 hx
  rw [Int.cast_natCast] at hlo hhi
  rw [← pow_add, ← pow_add]
  constructor
  · rw [show 52 + (m.log2 - 52) = m.log2 by omega]
    have hpow : (2 : ℚ) ^ m.log2 ≤ m := by exact_mod_cast Nat.log2_self_le hpos
    exact hpow.trans hlo
  · rw [show 53 + (m.log2 - 52) = m.log2 + 1 by omega]
    have hpow : (m : ℚ) + 1 ≤ 2 ^ (m.log2 + 1) := by exact_mod_cast Nat.lt_log2_self
    exact hhi.trans_le hpow

theorem halfEven_bounds (hx : ⌊x⌋ = m) (hm : 52 ≤ m.log2) :
    (2 ^ 52 : ℤ) ≤ halfEven (x / 2 ^ (m.log2 - 52)) ∧
      halfEven (x / 2 ^ (m.log2 - 52)) ≤ (2 ^ 53 : ℤ) := by
  obtain ⟨hlo, hhi⟩ := log2_bounds hx hm
  have hpos : (0 : ℚ) < 2 ^ (m.log2 - 52) := by positivity
  constructor
  · apply le_halfEven
    rw [le_div_iff₀ hpos]
    push_cast
    exact hlo
  · apply halfEven_le
    rw [div_le_iff₀ hpos]
    push_cast
    exact hhi.le

theorem nearest_eq_shifted (hx : ⌊x⌋ = m) (hm : 52 ≤ m.log2) : nearest (x * 2 ^ e) =
    halfEven (x / 2 ^ (m.log2 - 52)) * 2 ^ (m.log2 + e - 52) := by
  obtain ⟨hlo, hhi⟩ := log2_bounds hx hm
  obtain ⟨k, hk⟩ : ∃ k : ℕ, m.log2 = 52 + k := ⟨m.log2 - 52, by omega⟩
  have hexp : (m.log2 : ℤ) + e - 52 = e + k := by omega
  have hlog : m.log2 - 52 = k := by omega
  have he0 := two_zpow_pos e
  rw [hlog] at hlo hhi ⊢
  have hgrid : grid (x * 2 ^ e) = 2 ^ e * 2 ^ k := by
    have hb : e + m.log2 - 52 = e + k := by omega
    rw [grid_eq (b := e + m.log2), hb, two_zpow_add]
    · rw [two_zpow_add, hk, pow_add]
      nlinarith
    · rw [add_assoc, ← Nat.cast_succ, two_zpow_add, Nat.succ_eq_add_one, hk, pow_add, pow_add]
      nlinarith
  rw [nearest, hgrid, hexp, two_zpow_add, mul_comm x, mul_div_mul_left _ _ he0.ne']

theorem shift_long (hm : 52 ≤ m.log2) (he : -1074 ≤ m.log2 + e - 52) :
    shiftToTargetExponent Format.binary64 m e acc =
      (ExtendedMantissa.ofMantissaAndAccuracy m acc >>> (m.log2 - 52), m.log2 + e - 52) := by
  have hk : (m.log2 + e - 52 - e : ℤ).toNat = m.log2 - 52 := by omega
  rw [shiftToTargetExponent, targetExponent_eq he, shiftToExponent, hk]
  refine Prod.ext rfl ?_
  change e + ((m.log2 - 52 : ℕ) : ℤ) = _
  omega

theorem rounded_roundWithAccuracy (hx : Stands (.ofMantissaAndAccuracy m acc) x)
    (hm : 52 ≤ m.log2) (he : -1074 ≤ m.log2 + e - 52) :
    ∃ m' e' h, roundWithAccuracy Format.binary64 .positive m e acc = .finite .positive m' e' h ∧
      Rounded (x * 2 ^ e) (m.log2 + e) m' e' := by
  have hfloor : ⌊x⌋ = m := hx.floor.trans (by rw [mantissa_ofMantissaAndAccuracy])
  have hround := (hx.shiftRight (m.log2 - 52)).roundedMantissa
  obtain ⟨hmin, hmax⟩ := halfEven_bounds hfloor hm
  have hnearest := nearest_eq_shifted (e := e) hfloor hm
  have hshift : shiftToTargetExponent Format.binary64 m e acc = _ := shift_long hm he
  generalize hem : ExtendedMantissa.ofMantissaAndAccuracy m acc >>> (m.log2 - 52) = em
    at hround hshift
  rw [← hround] at hmin hmax hnearest
  have hrmin : 2 ^ 52 ≤ em.roundedMantissa := by exact_mod_cast hmin
  have hrmax : em.roundedMantissa ≤ 2 ^ 53 := by exact_mod_cast hmax
  -- rounding up can make the mantissa one bit too long, which the second shift takes back
  rcases hrmax.lt_or_eq with hlt | hcarry
  · have hlog : em.roundedMantissa.log2 = 52 := (Nat.log2_eq_iff (by omega)).2 ⟨hrmin, hlt⟩
    refine ⟨_, _, Nat.lt_of_lt_of_le (by decide) hrmin,
      roundWithAccuracy_eq hshift (shift_exact hlog he) _, hrmin, hlt, le_refl _, by omega, ?_⟩
    rw [hnearest]
    push_cast
    rfl
  · have hsecond := shift_carry he
    rw [← hcarry] at hsecond
    refine ⟨_, _, by decide, roundWithAccuracy_eq hshift hsecond _, le_refl _, by decide,
      by omega, by omega, ?_⟩
    rw [hnearest, zpow_add_one₀ (by norm_num), hcarry]
    push_cast
    ring

theorem log2_shiftLeft (hm : 0 < m) (k : ℕ) : (m <<< k).log2 = m.log2 + k := by
  rw [Nat.shiftLeft_eq, Nat.log2_eq_iff (by positivity), pow_add, Nat.add_right_comm, pow_add]
  exact ⟨Nat.mul_le_mul_right _ (Nat.log2_self_le hm.ne'),
    Nat.mul_lt_mul_of_pos_right Nat.lt_log2_self (Nat.two_pow_pos k)⟩

/-- A mantissa of few bits is made longer first, which changes nothing about its number. -/
theorem rounded_round (hm : 0 < m) (he : -1074 ≤ m.log2 + e - 52) :
    ∃ m' e' h, UnpackedFloat.round Format.binary64 .positive m e = .finite .positive m' e' h ∧
      Rounded (m * 2 ^ e) (m.log2 + e) m' e' := by
  obtain ⟨k, hk⟩ : ∃ k : ℕ, (e - (m.log2 + e - 52) : ℤ).toNat = k := ⟨_, rfl⟩
  have hlog := log2_shiftLeft hm k
  have hround : UnpackedFloat.round Format.binary64 .positive m e =
      roundWithAccuracy Format.binary64 .positive (m <<< k) (e - k) .exact := by
    rw [UnpackedFloat.round, targetExponent_eq he, decreaseExponent, hk]
  have hvalue : ((m <<< k : ℕ) : ℚ) * 2 ^ (e - k : ℤ) = m * 2 ^ e := by
    rw [Nat.shiftLeft_eq, Nat.cast_mul, Nat.cast_pow, Nat.cast_ofNat, mul_assoc, mul_comm (2 ^ k),
      ← two_zpow_add, sub_add_cancel]
  obtain ⟨m', e', h, hu, hr⟩ :=
    rounded_roundWithAccuracy (e := e - k) (stands_exact (m <<< k)) (by omega) (by omega)
  have hge := hr.exponent_ge
  have hle := hr.exponent_le
  exact ⟨m', e', h, hround.trans hu, hr.mantissa_ge, hr.mantissa_lt, by omega, by omega,
    hr.number_eq.trans (by rw [hvalue])⟩

end Round

end Readout.Rounding
