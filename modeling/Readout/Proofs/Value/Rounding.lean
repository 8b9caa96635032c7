import Mathlib.Algebra.Order.Floor.Ring
import Mathlib.Data.Int.Log
import Mathlib.Data.Rat.Floor
import Mathlib.Tactic.Linarith
import Mathlib.Tactic.NormNum
import Mathlib.Tactic.Ring

/-!
# Rounding to 53 bits

The doubles around a positive number lie on a grid that is finer by 52 binary places than the
number's own leading one. Rounding goes to the nearest point of the grid, and from the middle to
the even one. A number below a power of two therefore reaches that power exactly if it is no
further below it than a quarter of the grid above it (`nearest_lt_iff`), and no number changes by
more than half of its last place (`abs_nearest_sub_le`).
-/
namespace Readout.Rounding

/-- The nearest integer, of two the even one. -/
def halfEven (x : ℚ) : ℤ :=
  if x - ⌊x⌋ < 1 / 2 then ⌊x⌋ else if 1 / 2 < x - ⌊x⌋ then ⌊x⌋ + 1 else ⌊x⌋ + ⌊x⌋ % 2

def grid (q : ℚ) : ℚ := 2 ^ (Int.log 2 q - 52)

/-- The nearest number of 53 significant bits. -/
def nearest (q : ℚ) : ℚ := halfEven (q / grid q) * grid q

section HalfEven

variable {x : ℚ} {n : ℤ}

theorem halfEven_intCast (n : ℤ) : halfEven n = n := by
  simp [halfEven]

theorem floor_le_halfEven (x : ℚ) : ⌊x⌋ ≤ halfEven x := by
  rw [halfEven]
  split_ifs <;> omega

theorem halfEven_le_floor_add_one (x : ℚ) : halfEven x ≤ ⌊x⌋ + 1 := by
  rw [halfEven]
  split_ifs <;> omega

theorem le_halfEven (h : (n : ℚ) ≤ x) : n ≤ halfEven x :=
  (Int.le_floor.2 h).trans (floor_le_halfEven x)

theorem halfEven_le (h : x ≤ n) : halfEven x ≤ n := by
  rcases h.lt_or_eq with h | rfl
  · have hfloor : ⌊x⌋ < n := Int.floor_lt.2 h
    have hle := halfEven_le_floor_add_one x
    omega
  · exact (halfEven_intCast n).le

theorem halfEven_of_near (hlo : (n : ℚ) ≤ x) (hhi : x < n + 1 / 2) : halfEven x = n := by
  have hfloor : ⌊x⌋ = n := Int.floor_eq_iff.2 ⟨hlo, by linarith⟩
  rw [halfEven, hfloor, if_pos (by linarith)]

theorem halfEven_lt (h : x < n - 1 / 2) : halfEven x < n := by
  have hfloor : ⌊x⌋ < n := Int.floor_lt.2 (by linarith)
  by_cases hnext : ⌊x⌋ + 1 = n
  · have hcast : (⌊x⌋ : ℚ) = n - 1 := by rw [← hnext]; push_cast; ring
    rw [halfEven, hcast, if_pos (by linarith)]
    exact hfloor
  · have hle := halfEven_le_floor_add_one x
    omega

theorem halfEven_eq (hlo : (n : ℚ) - 1 / 2 ≤ x) (hhi : x < n) (heven : 2 ∣ n) :
    halfEven x = n := by
  have hfloor : ⌊x⌋ = n - 1 := Int.floor_eq_iff.2 ⟨by push_cast; linarith, by push_cast; linarith⟩
  rw [halfEven, hfloor]
  push_cast
  split_ifs <;> first | omega | (exfalso; linarith)

end HalfEven

section Nearest

variable {q : ℚ} {b : ℤ}

theorem two_zpow_pos (b : ℤ) : (0 : ℚ) < 2 ^ b := zpow_pos (by norm_num) b

theorem grid_pos (q : ℚ) : 0 < grid q := two_zpow_pos _

theorem two_zpow_add (b : ℤ) (n : ℕ) : (2 : ℚ) ^ (b + n) = 2 ^ b * 2 ^ n := by
  rw [zpow_add₀ (by norm_num), zpow_natCast]

theorem grid_eq (hlo : (2 : ℚ) ^ b ≤ q) (hhi : q < 2 ^ (b + 1)) : grid q = 2 ^ (b - 52) := by
  have hq : 0 < q := (two_zpow_pos b).trans_le hlo
  have hlog : Int.log 2 q = b := by
    have hle : b ≤ Int.log 2 q := (Int.zpow_le_iff_le_log (by decide) hq).1 (by exact_mod_cast hlo)
    have hlt : Int.log 2 q < b + 1 :=
      (Int.lt_zpow_iff_log_lt (by decide) hq).1 (by exact_mod_cast hhi)
    omega
  rw [grid, hlog]

theorem exists_grid (hq : 0 < q) : ∃ b : ℤ, 2 ^ (b - 1) ≤ q ∧ q < 2 ^ b := by
  refine ⟨Int.log 2 q + 1, ?_, ?_⟩
  · rw [add_sub_cancel_right]
    exact_mod_cast Int.zpow_log_le_self (by decide : 1 < 2) hq
  · exact_mod_cast Int.lt_zpow_succ_log_self (by decide : 1 < 2) q

/-- Below a power of two the grid has `2 ^ 53` points from zero up to that power. -/
theorem nearest_eq (hlo : (2 : ℚ) ^ (b - 1) ≤ q) (hhi : q < 2 ^ b) :
    nearest q = halfEven (q / 2 ^ (b - 53)) * 2 ^ (b - 53) := by
  rw [nearest, grid_eq hlo (by rwa [sub_add_cancel]), sub_sub]
  rfl

theorem two_zpow_top (b : ℤ) : (2 : ℚ) ^ b = 2 ^ 53 * 2 ^ (b - 53) := by
  rw [← zpow_natCast, ← zpow_add₀ (by norm_num)]
  congr 1
  push_cast
  ring

theorem two_zpow_half (b : ℤ) : (2 : ℚ) ^ (b - 54) = 1 / 2 * 2 ^ (b - 53) := by
  have h : (2 : ℚ) ^ (b - 53) = 2 ^ (b - 54) * 2 := by
    rw [← zpow_add_one₀ (by norm_num)]
    congr 1
    ring
  rw [h]
  ring

theorem nearest_nonneg (h : 0 ≤ q) : 0 ≤ nearest q := by
  have hg := grid_pos q
  have hpoint : (0 : ℤ) ≤ halfEven (q / grid q) :=
    le_halfEven (by rw [Int.cast_zero]; exact div_nonneg h hg.le)
  exact mul_nonneg (by exact_mod_cast hpoint) hg.le

theorem nearest_zero : nearest 0 = 0 := by
  have h := halfEven_intCast 0
  rw [Int.cast_zero] at h
  rw [nearest, zero_div, h, Int.cast_zero, zero_mul]

theorem nearest_of_point {n : ℤ} (h : q = n * grid q) : nearest q = q := by
  have hdiv : q / grid q = n := by
    rw [div_eq_iff (grid_pos q).ne']
    exact h
  rw [nearest, hdiv, halfEven_intCast]
  exact h.symm

theorem nearest_le (hq : 0 < q) (h : q < 2 ^ b) : nearest q ≤ 2 ^ b := by
  obtain ⟨c, hlo, hhi⟩ := exists_grid hq
  have hcb : c ≤ b := by
    have hlt := hlo.trans_lt h
    rw [zpow_lt_zpow_iff_right₀ (by norm_num)] at hlt
    omega
  have hg := two_zpow_pos (c - 53)
  have hpoint : halfEven (q / 2 ^ (c - 53)) ≤ 2 ^ 53 := by
    apply halfEven_le
    rw [div_le_iff₀ hg]
    rw [two_zpow_top] at hhi
    push_cast
    linarith
  have hcast : (halfEven (q / 2 ^ (c - 53)) : ℚ) ≤ 2 ^ 53 := by exact_mod_cast hpoint
  calc nearest q = halfEven (q / 2 ^ (c - 53)) * 2 ^ (c - 53) := nearest_eq hlo hhi
    _ ≤ 2 ^ 53 * 2 ^ (c - 53) := mul_le_mul_of_nonneg_right hcast hg.le
    _ = 2 ^ c := (two_zpow_top c).symm
    _ ≤ 2 ^ b := zpow_le_zpow_right₀ (by norm_num) hcb

/-- Rounding reaches a power of two from the last half step below it, and otherwise stays a whole
step below. -/
theorem nearest_lt_cases (hq : 0 < q) (h : q < 2 ^ b) :
    (q < 2 ^ b - 2 ^ (b - 54) ∧ nearest q ≤ 2 ^ b - 2 ^ (b - 53)) ∨
      (2 ^ b - 2 ^ (b - 54) ≤ q ∧ nearest q = 2 ^ b) := by
  have hg := two_zpow_pos (b - 53)
  rw [two_zpow_half]
  by_cases hlo : (2 : ℚ) ^ (b - 1) ≤ q
  · rw [nearest_eq hlo h, two_zpow_top b]
    rw [two_zpow_top b] at h
    generalize (2 : ℚ) ^ (b - 53) = g at hg h ⊢
    have hy : q / g < (2 ^ 53 : ℤ) := by
      rw [div_lt_iff₀ hg]
      push_cast
      exact h
    by_cases hnear : q / g < (2 ^ 53 : ℤ) - 1 / 2
    · left
      have hlt := halfEven_lt hnear
      have hcast : (halfEven (q / g) : ℚ) ≤ 2 ^ 53 - 1 := by
        exact_mod_cast Int.le_sub_one_of_lt hlt
      rw [div_lt_iff₀ hg] at hnear
      push_cast at hnear
      refine ⟨by linarith, ?_⟩
      calc (halfEven (q / g) : ℚ) * g ≤ (2 ^ 53 - 1) * g := mul_le_mul_of_nonneg_right hcast hg.le
        _ = 2 ^ 53 * g - g := by ring
    · right
      have hnear := not_lt.1 hnear
      rw [halfEven_eq hnear hy (by norm_num)]
      rw [le_div_iff₀ hg] at hnear
      push_cast at hnear ⊢
      exact ⟨by linarith, rfl⟩
  · left
    have hhalf := nearest_le hq (not_le.1 hlo)
    have hlo := not_le.1 hlo
    have hstep : (2 : ℚ) ^ (b - 1) = 2 ^ 52 * 2 ^ (b - 53) := by
      rw [two_zpow_top (b - 1), show b - 1 - 53 = b - 53 - 1 by ring, zpow_sub_one₀ (by norm_num)]
      ring
    rw [hstep] at hhalf hlo
    rw [two_zpow_top b]
    constructor <;> linarith

theorem nearest_of_near (hlo : (2 : ℚ) ^ b ≤ q) (hhi : q < 2 ^ b + 2 ^ (b - 53)) :
    nearest q = 2 ^ b := by
  have htop := two_zpow_top b
  have hg := two_zpow_pos (b - 53)
  have hgrid : grid q = 2 ^ (b - 53) * 2 := by
    rw [grid_eq hlo, ← zpow_add_one₀ (by norm_num)]
    · congr 1
      ring
    · rw [zpow_add_one₀ (by norm_num), htop]
      rw [htop] at hhi
      linarith
  rw [nearest, hgrid]
  rw [htop] at hlo hhi ⊢
  generalize (2 : ℚ) ^ (b - 53) = g at hg hlo hhi ⊢
  have hpoint : halfEven (q / (g * 2)) = 2 ^ 52 := by
    apply halfEven_of_near
    · rw [le_div_iff₀ (by linarith)]
      push_cast
      linarith
    · rw [div_lt_iff₀ (by linarith)]
      push_cast
      linarith
  rw [hpoint]
  push_cast
  ring

theorem nearest_lt_iff (hq : 0 ≤ q) (h : q < 2 ^ b) :
    nearest q ≤ 2 ^ b ∧ (nearest q < 2 ^ b ↔ q < 2 ^ b - 2 ^ (b - 54)) := by
  have hstep := two_zpow_pos (b - 53)
  rcases hq.eq_or_lt with rfl | hq
  · have hhalf := two_zpow_half b
    have htop := two_zpow_top b
    rw [nearest_zero]
    exact ⟨h.le, fun _ => by linarith, fun _ => h⟩
  · rcases nearest_lt_cases hq h with ⟨hlt, hle⟩ | ⟨hle, heq⟩
    · exact ⟨by linarith, fun _ => hlt, fun _ => by linarith⟩
    · exact ⟨heq.le, fun hlt => absurd heq hlt.ne, fun hlt => absurd hle (not_le.2 hlt)⟩

/-- A number of 53 bits is a point of its grid, wherever its leading bit stands. -/
theorem nearest_of_bits {n : ℕ} (hn : n < 2 ^ 53) (k : ℤ) :
    nearest (n * 2 ^ k) = n * 2 ^ k := by
  rcases Nat.eq_zero_or_pos n with rfl | hpos
  · simp [nearest_zero]
  · have hk := two_zpow_pos k
    have hlog : n.log2 < 53 := (Nat.log2_lt hpos.ne').2 hn
    have hle : (2 : ℚ) ^ n.log2 ≤ n := by exact_mod_cast Nat.log2_self_le hpos.ne'
    have hlt : (n : ℚ) < 2 ^ (n.log2 + 1) := by exact_mod_cast Nat.lt_log2_self
    have hgrid : grid (n * 2 ^ k) = 2 ^ (k + n.log2 - 52) := by
      apply grid_eq
      · rw [two_zpow_add, mul_comm]
        exact mul_le_mul_of_nonneg_right hle hk.le
      · rw [add_assoc, ← Nat.cast_succ, two_zpow_add, mul_comm (2 ^ k)]
        exact mul_lt_mul_of_pos_right hlt hk
    refine nearest_of_point (n := n * 2 ^ (52 - n.log2)) ?_
    rw [hgrid]
    push_cast
    rw [mul_assoc, ← zpow_natCast, ← zpow_add₀ (by norm_num)]
    congr 2
    omega

end Nearest

section Error

variable {q r t : ℚ}

theorem abs_halfEven_sub_le (x : ℚ) : |halfEven x - x| ≤ 1 / 2 := by
  have hlo := Int.floor_le x
  have hhi := Int.lt_floor_add_one x
  rw [halfEven, abs_le]
  split_ifs
  · constructor <;> linarith
  · push_cast
    constructor <;> linarith
  · rcases Int.emod_two_eq_zero_or_one ⌊x⌋ with h | h <;> rw [h] <;> push_cast <;>
      constructor <;> linarith

/-- Rounding changes a number by at most half of its last place. -/
theorem abs_nearest_sub_le (hq : 0 ≤ q) : |nearest q - q| ≤ q / 2 ^ 53 := by
  rcases hq.eq_or_lt with rfl | hpos
  · simp [nearest_zero]
  · have hg := grid_pos q
    have hgrid : grid q * 2 ^ 52 ≤ q := by
      have hle : (2 : ℚ) ^ Int.log 2 q ≤ q := by
        exact_mod_cast Int.zpow_log_le_self (by decide : 1 < 2) hpos
      rwa [grid, ← two_zpow_add, Nat.cast_ofNat, sub_add_cancel]
    have hsplit : nearest q - q = (halfEven (q / grid q) - q / grid q) * grid q := by
      rw [nearest, sub_mul, div_mul_cancel₀ _ hg.ne']
    rw [hsplit, abs_mul, abs_of_pos hg, le_div_iff₀ (by norm_num)]
    calc |(halfEven (q / grid q) : ℚ) - q / grid q| * grid q * 2 ^ 53
        ≤ 1 / 2 * grid q * 2 ^ 53 := by gcongr; exact abs_halfEven_sub_le _
      _ = grid q * 2 ^ 52 := by ring
      _ ≤ q := hgrid

theorem nearest_bounds (hq : 0 ≤ q) : q / 2 ≤ nearest q ∧ nearest q ≤ 2 * q := by
  have h := abs_le.1 (abs_nearest_sub_le hq)
  constructor <;> linarith

/-- Rounding twice changes a number by less than two of its last places. -/
theorem abs_nearest_sub_le_of_near (hq : 0 ≤ q) (hr : |r - q| ≤ q / 2 ^ 53) :
    |nearest r - q| ≤ q / 2 ^ 51 := by
  have hnear := abs_le.1 hr
  have hround := abs_le.1 (abs_nearest_sub_le (q := r) (by linarith))
  rw [abs_le]
  constructor <;> linarith

theorem abs_nearest_mul_sub_le (hr : 0 ≤ r) (ht : 0 ≤ t) :
    |nearest (r * nearest t) - r * t| ≤ r * t / 2 ^ 51 := by
  refine abs_nearest_sub_le_of_near (mul_nonneg hr ht) ?_
  rw [← mul_sub, abs_mul, abs_of_nonneg hr, mul_div_assoc]
  exact mul_le_mul_of_nonneg_left (abs_nearest_sub_le ht) hr

theorem abs_nearest_div_sub_le (ht : 0 ≤ t) (hr : 0 < r) :
    |nearest (nearest t / r) - t / r| ≤ t / r / 2 ^ 51 := by
  refine abs_nearest_sub_le_of_near (div_nonneg ht hr.le) ?_
  rw [← sub_div, abs_div, abs_of_pos hr, div_right_comm]
  exact div_le_div_of_nonneg_right (abs_nearest_sub_le ht) hr.le

end Error

section Fractions

variable {b v : ℕ} {f : ℚ}

/-- Up to 53 bits, a natural number is kept, and only its sum with the fraction is rounded. -/
theorem nearest_add_of_fine (hb : b ≤ 53) (hv : v < 2 ^ b) (hf0 : 0 ≤ f) (hf1 : f < 1) :
    nearest (nearest v + f) ≤ 2 ^ b ∧
      (nearest (nearest v + f) < 2 ^ b ↔ v + f < 2 ^ b - 2 ^ ((b : ℤ) - 54)) := by
  have hpow : (2 : ℚ) ^ (b : ℤ) = 2 ^ b := zpow_natCast 2 b
  have hv' : (v : ℚ) + 1 ≤ 2 ^ b := by exact_mod_cast hv
  have hexact : nearest (v : ℚ) = v := by
    have hlt : v < 2 ^ 53 := hv.trans_le (Nat.pow_le_pow_right (by decide) hb)
    simpa using nearest_of_bits hlt 0
  have hsum : 0 ≤ (v : ℚ) + f := add_nonneg (Nat.cast_nonneg v) hf0
  have h := nearest_lt_iff (b := b) hsum (by rw [hpow]; linarith)
  rwa [hexact, ← hpow]

theorem half_step_eq {n : ℕ} (hb : b = n + 54) : (2 : ℚ) ^ ((b : ℤ) - 54) = 2 ^ n := by
  rw [← zpow_natCast]
  congr 1
  omega

theorem nearest_lt_cases_of_coarse {n : ℕ} (hb : b = n + 54) (hv : v < 2 ^ b) :
    ((v : ℚ) + 1 ≤ 2 ^ b - 2 ^ n ∧ nearest (v : ℚ) ≤ 2 ^ b - 2 * 2 ^ n) ∨
      ((2 : ℚ) ^ b - 2 ^ n ≤ v ∧ nearest (v : ℚ) = 2 ^ b) := by
  have hpow : (2 : ℚ) ^ (b : ℤ) = 2 ^ b := zpow_natCast 2 b
  have hhalf := half_step_eq hb
  have hstep : (2 : ℚ) ^ ((b : ℤ) - 53) = 2 * 2 ^ n := by
    have h := two_zpow_half b
    rw [hhalf] at h
    linarith
  have hsplit : (2 : ℚ) ^ b = 2 ^ n * 2 ^ 54 := by rw [hb, pow_add]
  have hn : (1 : ℚ) ≤ 2 ^ n := one_le_pow₀ (by norm_num)
  have hv' : (v : ℚ) + 1 ≤ 2 ^ b := by exact_mod_cast hv
  rcases Nat.eq_zero_or_pos v with rfl | hpos
  · rw [Nat.cast_zero, nearest_zero, hsplit]
    exact .inl ⟨by linarith, by linarith⟩
  · have h := nearest_lt_cases (b := b) (Nat.cast_pos.2 hpos) (by rw [hpow]; linarith)
    rw [hpow, hhalf, hstep] at h
    refine h.imp (fun ⟨hlt, hle⟩ => ⟨?_, hle⟩) id
    -- half a step is a whole number here, so below it there is room for another one
    have hnat : v + 2 ^ n < 2 ^ b := by
      have hcast : ((v + 2 ^ n : ℕ) : ℚ) < ((2 ^ b : ℕ) : ℚ) := by
        push_cast
        linarith
      exact_mod_cast hcast
    have hcast : (v : ℚ) + 2 ^ n + 1 ≤ 2 ^ b := by exact_mod_cast hnat
    linarith

theorem nearest_add_of_coarse (hb : 54 ≤ b) (hv : v < 2 ^ b) (hf0 : 0 ≤ f) (hf1 : f < 1) :
    nearest (nearest v + f) ≤ 2 ^ b ∧
      (nearest (nearest v + f) < 2 ^ b ↔ v + f < 2 ^ b - 2 ^ ((b : ℤ) - 54)) := by
  obtain ⟨n, hbn⟩ : ∃ n, b = n + 54 := ⟨b - 54, by omega⟩
  have hpow : (2 : ℚ) ^ (b : ℤ) = 2 ^ b := zpow_natCast 2 b
  have hhalf := half_step_eq hbn
  have hn : (1 : ℚ) ≤ 2 ^ n := one_le_pow₀ (by norm_num)
  have hsum : 0 ≤ nearest (v : ℚ) + f := add_nonneg (nearest_nonneg (Nat.cast_nonneg v)) hf0
  rw [hhalf]
  rcases nearest_lt_cases_of_coarse hbn hv with ⟨hlt, hle⟩ | ⟨hle, heq⟩
  · have h := nearest_lt_iff (b := b) hsum (by rw [hpow]; linarith)
    rw [hpow, hhalf] at h
    exact ⟨h.1, h.2.trans ⟨fun _ => by linarith, fun _ => by linarith⟩⟩
  · have hstep := two_zpow_half b
    have htop : nearest (nearest (v : ℚ) + f) = 2 ^ b := by
      rw [← hpow]
      refine nearest_of_near ?_ ?_ <;> rw [hpow, heq] <;> linarith
    exact ⟨htop.le, fun h => absurd htop h.ne, fun h => by linarith⟩

/-- A rounded natural number below a power of two and a fraction of 53 bits make at most that
power together, and less than it exactly if they lack half a step to it. -/
theorem nearest_add_fraction {r : ℕ} (hv : v < 2 ^ b) (hr : r < 2 ^ 53) :
    nearest (nearest v + r / 2 ^ 53) ≤ 2 ^ b ∧
      (nearest (nearest v + r / 2 ^ 53) < 2 ^ b ↔ 2 ^ 54 * v + 2 * r + 2 ^ b < 2 ^ (b + 54)) := by
  have hr0 : (0 : ℚ) ≤ r / 2 ^ 53 := by positivity
  have hr1 : (r : ℚ) / 2 ^ 53 < 1 := by
    rw [div_lt_one (by positivity)]
    exact_mod_cast hr
  have hquarter : (2 : ℚ) ^ ((b : ℤ) - 54) = 2 ^ b / 2 ^ 54 := by
    rw [zpow_sub₀ (by norm_num), zpow_natCast]
    norm_num
  have hcond : 2 ^ 54 * v + 2 * r + 2 ^ b < 2 ^ (b + 54) ↔
      (v : ℚ) + r / 2 ^ 53 < 2 ^ b - 2 ^ ((b : ℤ) - 54) := by
    rw [hquarter, ← Nat.cast_lt (α := ℚ), pow_add]
    push_cast
    constructor <;> intro h <;> linarith
  rw [hcond]
  by_cases hb : b ≤ 53
  · exact nearest_add_of_fine hb hv hr0 hr1
  · exact nearest_add_of_coarse (by omega) hv hr0 hr1

end Fractions

end Readout.Rounding
