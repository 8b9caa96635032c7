import Mathlib.Data.EReal.Inv
import Mathlib.Analysis.Real.Sqrt
import Readout.Scalar

/-!
# Exact arithmetic

The scalars in which statements about limits are free of rounding: real numbers for what elements
hold, and extended ones for limits, which may be infinite.
-/
namespace Readout

open Classical in
noncomputable instance : Scalar ℝ where
  zero := 0
  neutral := 0
  ofNat n := n
  sqrt := Real.sqrt
  below a b := decide (a < b)
  atMost a b := decide (a ≤ b)
  isZero a := decide (a = 0)

open Classical in
noncomputable instance : Scalar EReal where
  zero := 0
  neutral := 0
  ofNat n := n
  sqrt a := if a = ⊤ then ⊤ else (Real.sqrt a.toReal : ℝ)
  below a b := decide (a < b)
  atMost a b := decide (a ≤ b)
  isZero a := decide (a = 0)

theorem Scalar.sqrt_bounds {v : ℝ} {u : EReal} (hv : 0 ≤ v) (hu : (v : EReal) < u) :
    (0 : EReal) ≤ (Real.sqrt v : ℝ) ∧ ((Real.sqrt v : ℝ) : EReal) < Scalar.sqrt u := by
  refine ⟨by exact_mod_cast Real.sqrt_nonneg v, ?_⟩
  by_cases htop : u = ⊤
  · exact (EReal.coe_lt_top _).trans_eq (if_pos htop).symm
  · have hreal := EReal.coe_toReal htop ((EReal.bot_lt_coe v).trans hu).ne'
    rw [← hreal] at hu
    have hlt : Real.sqrt v < Real.sqrt u.toReal := Real.sqrt_lt_sqrt hv (by exact_mod_cast hu)
    exact (EReal.coe_lt_coe_iff.2 hlt).trans_eq (if_neg htop).symm

end Readout
