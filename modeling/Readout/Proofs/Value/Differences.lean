import Readout.Proofs.Value.Order

/-!
# Differences of doubles

At the smaller of two exponents the difference of two finite doubles is exact. It is therefore zero
only for equal numbers, and it is rounded to an infinity only where the numbers are far apart
(`isFinite_sub_iff`): of two differences the one of the closer numbers does not overflow if the
other one does not. Zeros that come out of a difference or a product are zeros of either sign.
-/
namespace Readout.Value

open Float.Model Float.Model.UnpackedFloat Rounding

section Unpacked

/-- A double that is neither infinite nor a NaN. -/
def IsDouble : UnpackedFloat → Prop
  | .finite _ m e _ => Canonical m e ∧ e ≤ 971
  | .zero _ => True
  | _ => False

/-- Half a step above the largest double. -/
def top : ℚ := 2 ^ (1024 : ℤ) - 2 ^ (970 : ℤ)

theorem top_eq : top = (2 ^ 54 - 1) * 2 ^ (970 : ℤ) := by
  have hsplit : (2 : ℚ) ^ (1024 : ℤ) = 2 ^ (970 : ℤ) * 2 ^ 54 := two_zpow_add 970 54
  rw [top, hsplit]
  ring

theorem top_pos : 0 < top := by
  rw [top_eq]
  exact mul_pos (by norm_num) (two_zpow_pos 970)

variable {m : ℕ} {e : ℤ} {u w : UnpackedFloat}

theorem isDouble_zero (s : Sign) : IsDouble (.zero s) := trivial

theorem isDouble_finite (h : Canonical m e) (he : e ≤ 971) (s : Sign) (hm : 0 < m) :
    IsDouble (.finite s m e hm) := ⟨h, he⟩

theorem IsDouble.eq_zero_or_eq_finite (h : IsDouble u) : (∃ s, u = .zero s) ∨
    ∃ s m e hm, u = .finite s m e hm ∧ Canonical m e ∧ e ≤ 971 := by
  cases u with
  | infinity s => cases h
  | notANumber => cases h
  | zero s => exact .inl ⟨s, rfl⟩
  | finite s m e hm => exact .inr ⟨s, m, e, hm, rfl, h⟩

theorem Canonical.unpack_pack (h : Canonical m e) (he : e ≤ 971) (s : Sign) (hm : 0 < m) :
    UnpackedFloat.unpack Format.binary64 (UnpackedFloat.pack Format.binary64 (.finite s m e hm)) =
      .finite s m e hm := by
  have hge := h.exponent_ge
  by_cases hlead : 2 ^ 52 ≤ m
  · exact Normal.unpack_pack ⟨hlead, h.mantissa_lt, hge, he⟩ hm
  · obtain rfl : e = -1074 := by
      by_contra hne
      exact hlead (h.leading (by omega))
    have hlog : ¬ m.log2 + 1 = Format.binary64.mantissaBits := by
      have hlt : m.log2 < 52 := (Nat.log2_lt hm.ne').2 (by omega)
      exact fun h => absurd (Nat.succ.inj h) (by omega)
    have hpack : UnpackedFloat.pack Format.binary64 (.finite s m (-1074) hm) =
        packComponents Format.binary64 s 0#11 (BitVec.ofNat 52 m) := by
      simp only [UnpackedFloat.pack, if_neg hlog]
      rfl
    have hmantissa : (BitVec.ofNat 52 m).toNat = m := by
      rw [BitVec.toNat_ofNat]
      omega
    have hzero : ¬ BitVec.ofNat 52 m = 0#52 := fun h => by
      have hnat := congrArg BitVec.toNat h
      rw [hmantissa] at hnat
      exact hm.ne' hnat
    rw [hpack]
    unfold UnpackedFloat.unpack
    simp [hmantissa, hzero, Format.exponentBias]

theorem IsDouble.unpack_pack (h : IsDouble u) :
    UnpackedFloat.unpack Format.binary64 (UnpackedFloat.pack Format.binary64 u) = u := by
  obtain ⟨s, rfl⟩ | ⟨s, m, e, hm, rfl, hcanonical, he⟩ := h.eq_zero_or_eq_finite
  · exact unpack_packedZero
  · exact hcanonical.unpack_pack he s hm

theorem isFinite_unpack (b : BitVec Format.binary64.numBits) :
    (UnpackedFloat.unpack Format.binary64 b).isFinite = decide (unpackExponent b ≠ -1#11) := by
  unfold UnpackedFloat.unpack
  dsimp only
  split
  · next hones => split <;> simp [hones, UnpackedFloat.isFinite]
  · next hones =>
    split
    · split <;> simpa [UnpackedFloat.isFinite] using hones
    · simpa [UnpackedFloat.isFinite] using hones

theorem isDouble_unpack {b : BitVec Format.binary64.numBits}
    (h : (UnpackedFloat.unpack Format.binary64 b).isFinite = true) :
    IsDouble (UnpackedFloat.unpack Format.binary64 b) := by
  have hcanonical := isCanonical_unpack b
  have hlt : (unpackExponent b).toNat < 2 ^ 11 := BitVec.isLt _
  have hones : (unpackExponent b).toNat ≠ 2047 := fun hnat => by
    simp only [isFinite_unpack, decide_eq_true_eq] at h
    exact h (BitVec.eq_of_toNat_eq hnat)
  have hbias : (Format.binary64.exponentBias : ℤ) +
      (Format.binary64.mantissaBitsWithoutImplicit : ℤ) = 1075 := by
    simp [Format.exponentBias]
  generalize hu : UnpackedFloat.unpack Format.binary64 b = u at h hcanonical
  cases u with
  | infinity s => cases h
  | notANumber => cases h
  | zero s => exact isDouble_zero s
  | finite s m e hm =>
    refine isDouble_finite hcanonical ?_ s hm
    unfold UnpackedFloat.unpack at hu
    simp only [hbias] at hu
    -- a field of ones is no number, and one of zeros stands for the least exponent
    split at hu
    · split at hu <;> cases hu
    · split at hu
      · next hzero =>
        split at hu
        · cases hu
        · simp only [UnpackedFloat.finite.injEq] at hu
          have hzero : (unpackExponent b).toNat = 0 := congrArg BitVec.toNat hzero
          omega
      · simp only [UnpackedFloat.finite.injEq] at hu
        omega

theorem IsDouble.abs_ratio_lt (h : IsDouble u) : |ratio u| < top := by
  have hparts : ∀ {m : ℕ} {e : ℤ}, Canonical m e → e ≤ 971 → |(m : ℚ) * 2 ^ e| < top := by
    intro m e hc he
    have hm : (m : ℚ) ≤ 2 ^ 53 - 1 := by
      have hle : m + 1 ≤ 2 ^ 53 := hc.mantissa_lt
      have hcast : (m : ℚ) + 1 ≤ 2 ^ 53 := by exact_mod_cast hle
      linarith
    have hpow : (2 : ℚ) ^ e ≤ 2 ^ (971 : ℤ) := zpow_le_zpow_right₀ (by norm_num) he
    rw [abs_of_nonneg (mul_nonneg (Nat.cast_nonneg m) (two_zpow_pos e).le)]
    calc (m : ℚ) * 2 ^ e ≤ (2 ^ 53 - 1) * 2 ^ (971 : ℤ) :=
          mul_le_mul hm hpow (two_zpow_pos e).le (by norm_num)
      _ = (2 ^ 53 - 1) * (2 ^ (970 : ℤ) * 2 ^ 1) := congrArg _ (two_zpow_add 970 1)
      _ = (2 ^ 54 - 2) * 2 ^ (970 : ℤ) := by ring
      _ < (2 ^ 54 - 1) * 2 ^ (970 : ℤ) := mul_lt_mul_of_pos_right (by norm_num) (two_zpow_pos 970)
      _ = top := top_eq.symm
  obtain ⟨s, rfl⟩ | ⟨s, m, e, hm, rfl, hcanonical, he⟩ := h.eq_zero_or_eq_finite
  · simpa [ratio] using top_pos
  · cases s with
    | positive => exact hparts hcanonical he
    | negative => simpa [ratio, abs_neg] using hparts hcanonical he

end Unpacked

section Round

variable {m : ℕ} {e : ℤ} {u w : UnpackedFloat}

theorem round_sign {s : Sign} {m' : ℕ} {e' : ℤ} {h : 0 < m'}
    (hround : UnpackedFloat.round Format.binary64 .positive m e = .finite .positive m' e' h) :
    UnpackedFloat.round Format.binary64 s m e = .finite s m' e' h := by
  simp only [UnpackedFloat.round, roundWithAccuracy] at hround ⊢
  split at hround
  · cases hround
  · next hm =>
    simp only [UnpackedFloat.finite.injEq, true_and] at hround
    rw [dif_neg hm]
    simp only [UnpackedFloat.finite.injEq, true_and]
    exact hround

theorem round_short (hm : 0 < m) (he : -1074 ≤ e) (hshort : m.log2 + e - 52 < -1074) :
    ∃ m' h, UnpackedFloat.round Format.binary64 .positive m e =
      .finite .positive m' (-1074) h ∧ m' < 2 ^ 52 := by
  obtain ⟨k, rfl⟩ : ∃ k : ℕ, e = -1074 + k := Int.le.dest he |>.imp fun _ h => h.symm
  have hlog := log2_shiftLeft hm k
  have htarget : ∀ {t : ℤ}, t ≤ -1021 → Format.binary64.targetExponent t = -1074 := by
    intro t ht
    simp only [Format.targetExponent, Format.mantissaBits, Format.minExponent]
    norm_num
    omega
  have hpos : 0 < m <<< k := by
    rw [Nat.shiftLeft_eq]
    positivity
  have hlt : m <<< k < 2 ^ 52 := (Nat.log2_lt hpos.ne').1 (by omega)
  have hshift : shiftToTargetExponent Format.binary64 (m <<< k) (-1074) .exact =
      (⟨m <<< k, false, false⟩, -1074) := by
    rw [shiftToTargetExponent, htarget (by rw [totalExponent, hlog]; omega)]
    rfl
  have hdecrease : decreaseExponent m (-1074 + k) (-1074) = (m <<< k, -1074) := by
    simp [decreaseExponent]
  refine ⟨m <<< k, hpos, ?_, hlt⟩
  rw [UnpackedFloat.round, htarget (by rw [totalExponent]; omega), hdecrease]
  exact roundWithAccuracy_eq hshift hshift hpos

theorem Canonical.le_iff (h : Canonical m e) (hlead : 2 ^ 52 ≤ m) :
    e ≤ 971 ↔ (m : ℚ) * 2 ^ e < 2 ^ (1024 : ℤ) := by
  have hm : (m : ℚ) < 2 ^ 53 := by exact_mod_cast h.mantissa_lt
  have hlo : (2 : ℚ) ^ 52 ≤ m := by exact_mod_cast hlead
  have he := two_zpow_pos e
  constructor
  · intro hle
    have hpow : (2 : ℚ) ^ e ≤ 2 ^ (971 : ℤ) := zpow_le_zpow_right₀ (by norm_num) hle
    calc (m : ℚ) * 2 ^ e < 2 ^ 53 * 2 ^ e := mul_lt_mul_of_pos_right hm he
      _ ≤ 2 ^ 53 * 2 ^ (971 : ℤ) := mul_le_mul_of_nonneg_left hpow (by norm_num)
      _ = 2 ^ (1024 : ℤ) := (two_zpow_top 1024).symm
  · intro hlt
    by_contra hgt
    have hpow : (2 : ℚ) ^ (972 : ℤ) ≤ 2 ^ e := zpow_le_zpow_right₀ (by norm_num) (by omega)
    have hge : (2 : ℚ) ^ (1024 : ℤ) ≤ m * 2 ^ e :=
      calc (2 : ℚ) ^ (1024 : ℤ) = 2 ^ (972 : ℤ) * 2 ^ 52 := two_zpow_add 972 52
        _ = 2 ^ 52 * 2 ^ (972 : ℤ) := mul_comm _ _
        _ ≤ m * 2 ^ e := mul_le_mul hlo hpow (two_zpow_pos _).le (Nat.cast_nonneg m)
    exact absurd hlt (not_lt.2 hge)

theorem exists_round (hm : 0 < m) (he : -1074 ≤ e) :
    ∃ m' e' h, (∀ s, UnpackedFloat.round Format.binary64 s m e = .finite s m' e' h) ∧
      Canonical m' e' ∧ (e' ≤ 971 ↔ (m : ℚ) * 2 ^ e < top) := by
  -- few bits at a small exponent are kept, in a subnormal number; many are rounded
  rcases lt_or_ge (m.log2 + e - 52) (-1074) with hshort | hlong
  · obtain ⟨m', h, hu, hlt⟩ := round_short hm he hshort
    have hsmall : (m : ℚ) * 2 ^ e < 2 ^ (-1021 : ℤ) := by
      have hlog : (m : ℚ) < 2 ^ (m.log2 + 1) := by exact_mod_cast Nat.lt_log2_self
      calc (m : ℚ) * 2 ^ e < 2 ^ (m.log2 + 1) * 2 ^ e :=
            mul_lt_mul_of_pos_right hlog (two_zpow_pos e)
        _ = 2 ^ (e + (m.log2 + 1 : ℕ)) := by rw [two_zpow_add, mul_comm]
        _ ≤ 2 ^ (-1021 : ℤ) := zpow_le_zpow_right₀ (by norm_num) (by push_cast; omega)
    have hlow : (2 : ℚ) ^ (-1021 : ℤ) ≤ top := by
      rw [top_eq]
      exact (zpow_le_zpow_right₀ (by norm_num) (by decide)).trans
        (le_mul_of_one_le_left (two_zpow_pos 970).le (by norm_num))
    exact ⟨m', -1074, h, fun s => round_sign hu, ⟨by omega, le_rfl, fun h => absurd h (lt_irrefl _)⟩,
      iff_of_true (by decide) (hsmall.trans_le hlow)⟩
  · obtain ⟨m', e', h, hu, hr⟩ := rounded_round hm hlong
    have hge := hr.exponent_ge
    have hcanonical : Canonical m' e' := ⟨hr.mantissa_lt, by omega, fun _ => hr.mantissa_ge⟩
    refine ⟨m', e', h, fun s => round_sign hu, hcanonical, ?_⟩
    rcases lt_or_ge ((m : ℚ) * 2 ^ e) (2 ^ (1024 : ℤ)) with hlt | hle
    · have hpos : (0 : ℚ) ≤ m * 2 ^ e := mul_nonneg (Nat.cast_nonneg m) (two_zpow_pos e).le
      rw [hcanonical.le_iff hr.mantissa_ge, hr.number_eq, (nearest_lt_iff hpos hlt).2]
      rfl
    · have hlog := le_log2_add hle
      have hgap : top ≤ 2 ^ (1024 : ℤ) := sub_le_self _ (two_zpow_pos 970).le
      exact iff_of_false (by omega) (not_lt.2 (hgap.trans hle))

/-- A zero for `q = 0`, else a canonical number, which a double can hold unless `q` is too large. -/
inductive Rounds (q : ℚ) : UnpackedFloat → Prop
  | zero (s : Sign) : q = 0 → Rounds q (.zero s)
  | finite (s : Sign) {m : ℕ} {e : ℤ} (hm : 0 < m) :
      q ≠ 0 → Canonical m e → (e ≤ 971 ↔ |q| < top) → Rounds q (.finite s m e hm)

theorem rounds_normalize (k : ℤ) (he : -1074 ≤ e) :
    Rounds (k * 2 ^ e) (UnpackedFloat.normalize Format.binary64 k e .positive) := by
  rcases eq_or_ne k 0 with rfl | hk
  · exact .zero .positive (by simp)
  · obtain ⟨m', e', h, hround, hcanonical, hfits⟩ := exists_round (Int.natAbs_pos.2 hk) he
    have hne : (k : ℚ) * 2 ^ e ≠ 0 := mul_ne_zero (Int.cast_ne_zero.2 hk) (two_zpow_pos e).ne'
    have habs : |(k : ℚ) * 2 ^ e| = k.natAbs * 2 ^ e := by
      rw [abs_mul, abs_of_pos (two_zpow_pos e), Nat.cast_natAbs, Int.cast_abs]
    rw [← habs] at hfits
    rcases lt_or_gt_of_ne hk with hneg | hpos
    · have hnat : (-k).toNat = k.natAbs := by omega
      simpa [UnpackedFloat.normalize, Int.compare_eq_lt.2 hneg, hnat, hround] using
        Rounds.finite .negative h hne hcanonical hfits
    · have hnat : k.toNat = k.natAbs := by omega
      simpa [UnpackedFloat.normalize, Int.compare_eq_gt.2 hpos, hnat, hround] using
        Rounds.finite .positive h hne hcanonical hfits

@[simp] theorem ratio_zero (s : Sign) : ratio (.zero s) = 0 := rfl

theorem ratio_finite (s : Sign) (m : ℕ) (e : ℤ) (hm : 0 < m) :
    ratio (.finite s m e hm) = (s.apply m : ℤ) * 2 ^ e := by
  cases s <;> simp [ratio, Sign.apply]

theorem ratio_finite_ne_zero (s : Sign) (hm : 0 < m) : ratio (.finite s m e hm) ≠ 0 := by
  cases s <;> simp [ratio, hm.ne', (two_zpow_pos e).ne']

theorem ratio_decreaseExponent (s : Sign) (m : ℕ) {e i : ℤ} (hle : i ≤ e) :
    ((s.apply (decreaseExponent m e i).1 : ℤ) : ℚ) * 2 ^ i = (s.apply m : ℤ) * 2 ^ e := by
  have hvalue := decreaseExponent_value m hle
  cases s <;> simpa [Sign.apply] using hvalue

/-- At the lower one of the two exponents the mantissas have an exact difference. -/
theorem sub_finite (s t : Sign) {m n : ℕ} {e d : ℤ} (hm : 0 < m) (hn : 0 < n) :
    ∃ k : ℤ, (k : ℚ) * 2 ^ min e d = ratio (.finite s m e hm) - ratio (.finite t n d hn) ∧
      UnpackedFloat.sub Format.binary64 (.finite s m e hm) (.finite t n d hn) =
        UnpackedFloat.normalize Format.binary64 k (min e d) .positive := by
  refine ⟨s.apply (decreaseExponent m e (min e d)).1 - t.apply (decreaseExponent n d (min e d)).1,
    ?_, rfl⟩
  rw [Int.cast_sub, sub_mul, ratio_decreaseExponent s m (min_le_left e d),
    ratio_decreaseExponent t n (min_le_right e d), ratio_finite, ratio_finite]

theorem IsDouble.rounds_sub (hu : IsDouble u) (hw : IsDouble w) :
    Rounds (ratio u - ratio w) (UnpackedFloat.sub Format.binary64 u w) := by
  obtain ⟨s, rfl⟩ | ⟨s, m, e, hm, rfl, hm', he⟩ := hu.eq_zero_or_eq_finite <;>
    obtain ⟨t, rfl⟩ | ⟨t, n, d, hn, rfl, hn', hd⟩ := hw.eq_zero_or_eq_finite
  · cases s <;> cases t <;> exact .zero _ (sub_self 0)
  · refine .finite (-t) hn (by simp [ratio_finite_ne_zero]) hn' (iff_of_true hd ?_)
    simpa using hw.abs_ratio_lt
  · refine .finite s hm (by simp [ratio_finite_ne_zero]) hm' (iff_of_true he ?_)
    simpa using hu.abs_ratio_lt
  · obtain ⟨k, hexact, hsub⟩ := sub_finite s t (e := e) (d := d) hm hn
    rw [hsub, ← hexact]
    exact rounds_normalize k (le_min hm'.exponent_ge hn'.exponent_ge)

end Round

section Packed

/-- What arithmetic makes of an unpacked result. -/
def packed (u : UnpackedFloat) : Value := ofFloat (.ofModel (Float.Model.pack u))

def fraction (v : Value) : ℚ := ratio v.toFloat.toModel.unpack

variable {a b c d v : Value} {u : UnpackedFloat}

theorem isFinite_eq (v : Value) :
    v.isFinite = (UnpackedFloat.unpack Format.binary64 v.bits.toBitVec).isFinite := by
  have hx := toNat_exponent v
  have hones : @unpackExponent Format.binary64 v.bits.toBitVec = -1#11 ↔
      v.bits.toNat / 2 ^ 52 % 2 ^ 11 = 2047 := by
    rw [← hx]
    exact BitVec.toNat_inj.symm
  have hfinite : v.isFinite = true ↔ v.bits.toNat % 2 ^ 63 < 2047 * 2 ^ 52 := by
    rw [isFinite, decide_eq_true_iff, UInt64.lt_iff_toNat_lt, toNat_magnitude]
    rfl
  rw [Bool.eq_iff_iff, isFinite_unpack, hfinite, decide_eq_true_iff, ne_eq, hones]
  omega

theorem isNaN_of_isFinite (h : v.isFinite = true) : v.isNaN = false := by
  rw [isFinite_eq] at h
  rw [isNaN_eq_isNaNBits, ← isNaN_unpack]
  generalize UnpackedFloat.unpack Format.binary64 v.bits.toBitVec = u at h
  cases u <;> first | rfl | cases h

theorem isFinite_toFloat (h : v.isNaN = false) :
    v.isFinite = v.toFloat.toModel.unpack.isFinite := by
  rw [unpack_toFloat h, isFinite_eq]

theorem isDouble_of_isFinite (h : v.isFinite = true) : IsDouble v.toFloat.toModel.unpack :=
  isDouble_unpack ((isFinite_toFloat (isNaN_of_isFinite h)).symm.trans h)

theorem number_of_isFinite (h : v.isFinite = true) : v.number = ((v.fraction : ℝ) : EReal) := by
  have hdouble := isDouble_of_isFinite h
  rw [number, fraction]
  obtain ⟨s, hu⟩ | ⟨s, m, e, hm, hu, -⟩ := hdouble.eq_zero_or_eq_finite <;> rw [hu] <;> rfl

theorem isFinite_of_number (hnan : v.isNaN = false) (hbot : v.number ≠ ⊥) (htop : v.number ≠ ⊤) :
    v.isFinite = true := by
  have hunpacked := isNaN_toFloat hnan
  rw [isFinite_toFloat hnan]
  rw [number] at hbot htop
  generalize v.toFloat.toModel.unpack = u at *
  cases u with
  | infinity s =>
    cases s with
    | positive => exact absurd rfl htop
    | negative => exact absurd rfl hbot
  | notANumber => cases hunpacked
  | zero s => rfl
  | finite s m e hm => rfl

theorem below_iff_fraction (ha : a.isFinite = true) (hb : b.isFinite = true) :
    below a b = true ↔ a.fraction < b.fraction := by
  rw [below_iff_number, number_of_isFinite ha, number_of_isFinite hb]
  simp [isNaN_of_isFinite ha, isNaN_of_isFinite hb]

theorem bits_packed (h : (UnpackedFloat.unpack Format.binary64
    (UnpackedFloat.pack Format.binary64 u)).isNaN = false) :
    (packed u).bits.toBitVec = UnpackedFloat.pack Format.binary64 u := by
  have hnan : Float.isNaN (.ofModel (Float.Model.pack u)) = (UnpackedFloat.unpack Format.binary64
    (UnpackedFloat.pack Format.binary64 u)).isNaN := rfl
  rw [packed, ofFloat, hnan, h]
  rfl

theorem IsDouble.packed_eq (h : IsDouble u) :
    (packed u).isFinite = true ∧ (packed u).toFloat.toModel.unpack = u := by
  have hfinite : u.isFinite = true ∧ u.isNaN = false := by
    cases u <;> first | exact ⟨rfl, rfl⟩ | cases h
  have hbits := bits_packed (by rw [h.unpack_pack, hfinite.2])
  have hpacked : (packed u).isFinite = true := by rw [isFinite_eq, hbits, h.unpack_pack, hfinite.1]
  exact ⟨hpacked, by rw [unpack_toFloat (isNaN_of_isFinite hpacked), hbits, h.unpack_pack]⟩

theorem not_isFinite_packed {s : Sign} {m : ℕ} {e : ℤ} {hm : 0 < m} (he : 971 < e) :
    (packed (.finite s m e hm)).isFinite = false := by
  have hbiased : e + (Format.binary64.exponentBias : ℤ) + (52 : ℕ) = e + 1075 := by
    simp [Format.exponentBias]
    ring
  have hpack : UnpackedFloat.pack Format.binary64 (.finite s m e hm) =
      packedInfinity Format.binary64 s := by
    simp only [UnpackedFloat.pack, hbiased]
    rw [if_pos (by omega)]
  have hinfinity : UnpackedFloat.unpack Format.binary64
      (packedInfinity Format.binary64 s) = .infinity s := by
    cases s <;> rfl
  rw [isFinite_eq, bits_packed, hpack, hinfinity]
  · rfl
  · rw [hpack, hinfinity]
    rfl

theorem denotes_packed_zero (s : Sign) : (packed (.zero s)).Denotes 0 := by
  obtain ⟨hfinite, hunpack⟩ := (isDouble_zero s).packed_eq
  refine ⟨isNaN_of_isFinite hfinite, ?_⟩
  rw [number, hunpack]
  simp [reading, ratio]

theorem exists_zero (ha : a.Denotes 0) : ∃ s, a.toFloat.toModel.unpack = .zero s :=
  eq_zero_of_reading (isNaN_toFloat ha.1) ha.2

theorem Rounds.isFinite_packed_iff {q : ℚ} (h : Rounds q u) :
    (packed u).isFinite = true ↔ |q| < top := by
  cases h with
  | zero s hq => exact iff_of_true (isDouble_zero s).packed_eq.1 (by simpa [hq] using top_pos)
  | @finite s m e hm _ hcanonical hfits =>
    rw [← hfits]
    rcases lt_or_ge 971 e with hlarge | hle
    · exact iff_of_false (by simp [not_isFinite_packed hlarge]) (not_le.2 hlarge)
    · exact iff_of_true (isDouble_finite hcanonical hle s hm).packed_eq.1 hle

theorem Rounds.denotes_zero_iff {q : ℚ} (h : Rounds q u) (hfinite : (packed u).isFinite = true) :
    (packed u).Denotes 0 ↔ q = 0 := by
  have hlt := h.isFinite_packed_iff.1 hfinite
  cases h with
  | zero s hq => exact iff_of_true (denotes_packed_zero s) hq
  | finite s hm hne hcanonical hfits =>
    have hdouble := isDouble_finite hcanonical (hfits.2 hlt) s hm
    refine iff_of_false (fun hdenotes => ?_) hne
    obtain ⟨t, hzero⟩ := exists_zero hdenotes
    rw [hdouble.packed_eq.2] at hzero
    cases hzero

theorem binary_eq (f : Float → Float → Float) (ha : a.isNaN = false) (hb : b.isNaN = false) :
    binary f a b = ofFloat (f a.toFloat b.toFloat) := by
  simp [binary, ha, hb]

end Packed

section Arithmetic

variable {a b c d : Value}

theorem sub_eq_packed (ha : a.isFinite = true) (hb : b.isFinite = true) :
    a - b = packed (UnpackedFloat.sub Format.binary64 a.toFloat.toModel.unpack
      b.toFloat.toModel.unpack) :=
  binary_eq _ (isNaN_of_isFinite ha) (isNaN_of_isFinite hb)

theorem isFinite_sub_iff (ha : a.isFinite = true) (hb : b.isFinite = true) :
    (a - b).isFinite = true ↔ |a.fraction - b.fraction| < top := by
  rw [sub_eq_packed ha hb]
  exact ((isDouble_of_isFinite ha).rounds_sub (isDouble_of_isFinite hb)).isFinite_packed_iff

theorem isFinite_sub_of_le (ha : a.isFinite = true) (hb : b.isFinite = true)
    (hc : c.isFinite = true) (hd : d.isFinite = true)
    (hle : |a.fraction - b.fraction| ≤ |c.fraction - d.fraction|)
    (hcd : (c - d).isFinite = true) : (a - b).isFinite = true :=
  (isFinite_sub_iff ha hb).2 (hle.trans_lt ((isFinite_sub_iff hc hd).1 hcd))

/-- Only a number's difference to itself is zero: none underflows. -/
theorem denotes_sub_zero_iff (ha : a.isFinite = true) (hb : b.isFinite = true)
    (hfinite : (a - b).isFinite = true) : (a - b).Denotes 0 ↔ a.fraction = b.fraction := by
  rw [sub_eq_packed ha hb] at hfinite ⊢
  have hrounds := (isDouble_of_isFinite ha).rounds_sub (isDouble_of_isFinite hb)
  exact (hrounds.denotes_zero_iff hfinite).trans sub_eq_zero

theorem denotes_sub_self (ha : a.isFinite = true) : (a - a).Denotes 0 := by
  have hfinite : (a - a).isFinite = true := (isFinite_sub_iff ha ha).2 (by simpa using top_pos)
  exact (denotes_sub_zero_iff ha ha hfinite).2 rfl

theorem denotes_zero_mul (ha : a.Denotes 0) (hb : b.isFinite = true) : (a * b).Denotes 0 := by
  obtain ⟨s, hs⟩ := exists_zero ha
  have hmul : a * b = packed (UnpackedFloat.mul Format.binary64 a.toFloat.toModel.unpack
    b.toFloat.toModel.unpack) := binary_eq _ ha.1 (isNaN_of_isFinite hb)
  rw [hmul, hs]
  obtain ⟨t, hu⟩ | ⟨t, m, e, hm, hu, -⟩ := (isDouble_of_isFinite hb).eq_zero_or_eq_finite <;>
    rw [hu] <;> exact denotes_packed_zero _

theorem denotes_zero_div (ha : a.Denotes 0) (hb : b.isFinite = true) (hne : ¬ b.Denotes 0) :
    (a / b).Denotes 0 := by
  obtain ⟨s, hs⟩ := exists_zero ha
  have hdiv : a / b = packed (UnpackedFloat.div Format.binary64 a.toFloat.toModel.unpack
    b.toFloat.toModel.unpack) := binary_eq _ ha.1 (isNaN_of_isFinite hb)
  obtain ⟨t, hu⟩ | ⟨t, m, e, hm, hu, -⟩ := (isDouble_of_isFinite hb).eq_zero_or_eq_finite
  · exact absurd ⟨isNaN_of_isFinite hb, by rw [number, hu]; simp [reading, ratio]⟩ hne
  · rw [hdiv, hs, hu]
    exact denotes_packed_zero _

theorem denotes_zero_add (ha : a.Denotes 0) (hb : b.isFinite = true) :
    (a + b).Denotes b.number := by
  obtain ⟨s, hs⟩ := exists_zero ha
  have hdouble := isDouble_of_isFinite hb
  have hadd : a + b = packed (UnpackedFloat.add Format.binary64 a.toFloat.toModel.unpack
    b.toFloat.toModel.unpack) := binary_eq _ ha.1 (isNaN_of_isFinite hb)
  rw [hadd, hs, number]
  obtain ⟨t, hu⟩ | ⟨t, m, e, hm, hu, -⟩ := hdouble.eq_zero_or_eq_finite <;> rw [hu] at hdouble ⊢
  · have hzero : reading (.zero t) = 0 := by simp [reading, ratio]
    rw [hzero]
    cases s <;> cases t <;> exact denotes_packed_zero _
  · obtain ⟨hfinite, hunpack⟩ := hdouble.packed_eq
    exact ⟨isNaN_of_isFinite hfinite, congrArg reading hunpack⟩

end Arithmetic

end Readout.Value
