import Readout.Proofs.Value.Exact
import Readout.Proofs.Value.Order
import Readout.Operator.Step

/-!
# Quantities

What an element-wise operator does to an element needs arithmetic, constants and the mark of what is
invalid. Doubles are one such type, the one that the operators run over. Another one are exact
values, over which nothing is rounded: there each of these operations keeps to declared limits.
-/
namespace Readout

class Quantity (δ : Type) extends Scalar δ where
  isValid : δ → Bool
  invalid : δ
  /-- What a constant of an operator stands for. -/
  constant : Value → δ

instance : Quantity Value where
  isValid := Value.isValid
  invalid := Value.invalid
  constant := id

namespace Quantity

section Operations

variable {δ : Type} [Quantity δ]

def window (w : Window Value) : Window δ := ⟨constant w.min, constant w.max⟩

def calibrated (value lower unitMin factor : δ) : δ :=
  if isValid value then rescale value lower unitMin factor else value

def difference (a b : δ) : δ := if isValid a && isValid b then a - b else invalid

def inRange (w : Window δ) (inverted : Bool) (v : δ) : δ :=
  if isValid v && w.contains v != inverted then v else invalid

def conditioned (inverted : Bool) (condition v : δ) : δ :=
  if isValid condition != inverted then v else invalid

def remembered (keepValid : Bool) (previous v : δ) : δ :=
  if !keepValid || isValid v then v else previous

/-- The coordinate lies on the axis between two limits, on neither side of it. -/
def spans (lower upper x : δ) : Bool :=
  !Scalar.below x lower && !Scalar.atMost (lower + (upper - lower)) x

end Operations

end Quantity

/-- A value without rounding. What exact arithmetic leaves undefined is valid, but no number. -/
inductive ExactValue
  | number (x : EReal)
  | undefined
  | invalid

namespace ExactValue

open Classical in
/-- An operation on numbers. Of other operands the first one is passed on. -/
noncomputable def combine (f : EReal → EReal → EReal) (bad : EReal → EReal → Prop) :
    ExactValue → ExactValue → ExactValue
  | number x, number y => if bad x y then undefined else number (f x y)
  | number _, b => b
  | a, _ => a

open Classical in
noncomputable instance : Quantity ExactValue where
  zero := number 0
  neutral := number 0
  ofNat n := number n
  add := combine (· + ·) fun x y => x = ⊤ ∧ y = ⊥ ∨ x = ⊥ ∧ y = ⊤
  sub := combine (· - ·) fun x y => x = ⊤ ∧ y = ⊤ ∨ x = ⊥ ∧ y = ⊥
  mul := combine (· * ·) fun x y => x = 0 ∧ (y = ⊤ ∨ y = ⊥) ∨ (x = ⊤ ∨ x = ⊥) ∧ y = 0
  div := combine (· / ·) fun x y => y = 0 ∨ (x = ⊤ ∨ x = ⊥) ∧ (y = ⊤ ∨ y = ⊥)
  sqrt
    | number x => if x < 0 then undefined else number (Scalar.sqrt x)
    | a => a
  below
    | number x, number y => decide (x < y)
    | _, _ => false
  atMost
    | number x, number y => decide (x ≤ y)
    | _, _ => false
  isZero
    | number x => decide (x = 0)
    | _ => false
  isValid
    | invalid => false
    | _ => true
  invalid := invalid
  constant v := if v.isNaN then undefined else number v.number

section Arithmetic

variable (x y : ℝ) (a : EReal)

theorem number_add_coe : number a + number y = number (a + y) :=
  if_neg (by simp)

theorem number_sub_coe : number a - number y = number (a - y) :=
  if_neg (by simp)

theorem coe_mul_coe : number x * number y = number ((x * y : ℝ) : EReal) :=
  if_neg (by simp)

variable {y}

theorem coe_div_coe (hy : y ≠ 0) : number x / number y = number ((x / y : ℝ) : EReal) :=
  if_neg (by simp [hy])

theorem coe_div_top : number x / number ⊤ = number ((0 : ℝ) : EReal) := by
  have hzero : (x : EReal) / ⊤ = ((0 : ℝ) : EReal) := by simp
  exact (if_neg (by simp)).trans (congrArg number hzero)

end Arithmetic

/-- The value is a number in the half-open interval between two limits. -/
def Within (limits : ExactValue × ExactValue) (v : ExactValue) : Prop :=
  ∃ (a b : EReal) (x : ℝ), limits = (number a, number b) ∧ v = number x ∧ a ≤ x ∧ x < b

/-- The same for the open interval. -/
def Amid (limits : ExactValue × ExactValue) (v : ExactValue) : Prop :=
  ∃ (a b : EReal) (x : ℝ), limits = (number a, number b) ∧ v = number x ∧ a < x ∧ x < b

variable {v w : ExactValue} {l : ExactValue × ExactValue}

theorem Amid.within (h : Amid l v) : Within l v := by
  obtain ⟨a, b, x, hl, hv, ha, hb⟩ := h
  exact ⟨a, b, x, hl, hv, ha.le, hb⟩

/-- If the value is valid, it lies in the limits. -/
def Kept (l : ExactValue × ExactValue) (v : ExactValue) : Prop :=
  Quantity.isValid v = true → Within l v

theorem kept_invalid (l : ExactValue × ExactValue) : Kept l Quantity.invalid := fun h => by cases h

theorem inRange_kept (h : Kept l v) (window : Window ExactValue) (inverted : Bool) :
    Kept l (Quantity.inRange window inverted v) := by
  rw [Quantity.inRange]
  split
  · exact h
  · exact kept_invalid l

theorem conditioned_kept (h : Kept l v) (inverted : Bool) (condition : ExactValue) :
    Kept l (Quantity.conditioned inverted condition v) := by
  rw [Quantity.conditioned]
  split
  · exact h
  · exact kept_invalid l

theorem remembered_kept (h : Kept l v) (h' : Kept l w) (keepValid : Bool) :
    Kept l (Quantity.remembered keepValid w v) := by
  rw [Quantity.remembered]
  split
  · exact h
  · exact h'

/-- What a calibration makes of an element in its limits lies between the units. -/
theorem calibrated_within {unitMin unitMax : ℝ} (h : Within l v) (hl : l.1 ≠ number ⊥)
    (hunits : unitMin < unitMax) :
    Within (number unitMin, number unitMax) (Quantity.calibrated v l.1 (number unitMin)
      (Operator.calibrationFactor (number unitMin) (number unitMax) l.1 l.2)) := by
  obtain ⟨a, b, x, rfl, rfl, ha, hb⟩ := h
  have htop : a ≠ ⊤ := (ha.trans_lt (EReal.coe_lt_top x)).ne
  lift a to ℝ using ⟨htop, fun hbot => hl (congrArg number hbot)⟩
  have hax : a ≤ x := by exact_mod_cast ha
  suffices hfactor : ∃ c : ℝ, 0 ≤ c ∧ (x - a) * c < unitMax - unitMin ∧ Operator.calibrationFactor
      (number unitMin) (number unitMax) (number a) (number b) = number c by
    obtain ⟨c, hc, hlt, hfactor⟩ := hfactor
    have hvalue : Quantity.calibrated (number x) (number a) (number unitMin) (number c) =
        number (((x - a) * c + unitMin : ℝ) : EReal) := by
      change (number x - number a) * number c + number unitMin = _
      rw [number_sub_coe, ← EReal.coe_sub, coe_mul_coe, number_add_coe, EReal.coe_add]
    rw [hfactor, hvalue]
    have hpos : 0 ≤ (x - a) * c := mul_nonneg (sub_nonneg.2 hax) hc
    refine ⟨_, _, _, rfl, rfl, ?_, ?_⟩
    · exact_mod_cast le_add_of_nonneg_left hpos
    · exact_mod_cast (by linarith : (x - a) * c + unitMin < unitMax)
  have hunit : (0 : ℝ) < unitMax - unitMin := sub_pos.2 hunits
  by_cases hbtop : b = ⊤
  · subst hbtop
    refine ⟨0, le_rfl, by rwa [mul_zero], ?_⟩
    change (number unitMax - number unitMin) / (number ⊤ - number a) = _
    rw [number_sub_coe, number_sub_coe, ← EReal.coe_sub, EReal.top_sub_coe, coe_div_top]
  · lift b to ℝ using ⟨hbtop, ((EReal.bot_lt_coe x).trans hb).ne'⟩
    have hxb : x < b := by exact_mod_cast hb
    have hwidth : 0 < b - a := by linarith
    refine ⟨(unitMax - unitMin) / (b - a), (div_pos hunit hwidth).le, ?_, ?_⟩
    · rw [← mul_div_assoc, div_lt_iff₀ hwidth, mul_comm]
      exact mul_lt_mul_of_pos_left (by linarith) hunit
    · change (number unitMax - number unitMin) / (number b - number a) = _
      rw [number_sub_coe, number_sub_coe, ← EReal.coe_sub, ← EReal.coe_sub,
        coe_div_coe _ hwidth.ne']

theorem calibrated_kept {unitMin unitMax : ℝ} (h : Kept l v) (hl : l.1 ≠ number ⊥)
    (hunits : unitMin < unitMax) :
    Kept (number unitMin, number unitMax) (Quantity.calibrated v l.1 (number unitMin)
      (Operator.calibrationFactor (number unitMin) (number unitMax) l.1 l.2)) := by
  intro hv
  refine calibrated_within (h ?_) hl hunits
  by_contra hinvalid
  exact hinvalid ((congrArg Quantity.isValid (if_neg hinvalid)).symm.trans hv)

/-- A difference lies between the differences of the limits that are the furthest apart. -/
theorem difference_amid {l' : ExactValue × ExactValue} (h : Kept l v) (h' : Kept l' w)
    (hv : Quantity.isValid (Quantity.difference v w) = true) :
    Amid (Operator.differenceLimits l l') (Quantity.difference v w) := by
  have hvalid : (Quantity.isValid v && Quantity.isValid w) = true := by
    by_contra hinvalid
    cases (congrArg Quantity.isValid (if_neg hinvalid)).symm.trans hv
  obtain ⟨a, b, x, rfl, rfl, ha, hb⟩ := h (Bool.and_eq_true_iff.1 hvalid).1
  obtain ⟨c, d, y, rfl, rfl, hc, hd⟩ := h' (Bool.and_eq_true_iff.1 hvalid).2
  have hatop : a ≠ ⊤ := (ha.trans_lt (EReal.coe_lt_top x)).ne
  have hbbot : b ≠ ⊥ := ((EReal.bot_lt_coe x).trans hb).ne'
  have hctop : c ≠ ⊤ := (hc.trans_lt (EReal.coe_lt_top y)).ne
  have hdbot : d ≠ ⊥ := ((EReal.bot_lt_coe y).trans hd).ne'
  have hlower : number a - number d = number (a - d) := if_neg (by simp [hatop, hdbot])
  have hupper : number b - number c = number (b - c) := if_neg (by simp [hbbot, hctop])
  refine ⟨a - d, b - c, x - y, Prod.ext hlower hupper, number_sub_coe _ _, ?_, ?_⟩
  · exact EReal.sub_lt_sub_of_le_of_gt ha hd hatop (EReal.coe_ne_bot x)
  · by_cases hcbot : c = ⊥
    · rw [hcbot, EReal.sub_bot hbbot]
      exact EReal.coe_lt_top _
    · exact EReal.sub_lt_sub_of_lt_of_le hb hc hcbot (EReal.coe_ne_top y)

/-- A default-binned axis holds what lies in the limits. -/
theorem spans_of_within (h : Within l v) : Quantity.spans l.1 l.2 v = true := by
  obtain ⟨a, b, x, rfl, rfl, ha, hb⟩ := h
  dsimp only
  have hunder : Scalar.below (number x) (number a) = false := decide_eq_false ha.not_gt
  rw [Quantity.spans, hunder, Bool.not_false, Bool.true_and, Bool.not_eq_true']
  have hatop : a ≠ ⊤ := (ha.trans_lt (EReal.coe_lt_top x)).ne
  have hbbot : b ≠ ⊥ := ((EReal.bot_lt_coe x).trans hb).ne'
  by_cases habot : a = ⊥
  · -- an axis without a beginning has no end that a number could reach
    have hrange : number b - number ⊥ = number ⊤ := by
      have hsub : number b - number ⊥ = number (b - ⊥) := if_neg (by simp [hbbot])
      rw [hsub, EReal.sub_bot hbbot]
    have hmax : number ⊥ + number ⊤ = undefined := if_pos (.inr ⟨rfl, rfl⟩)
    rw [habot, hrange, hmax]
    rfl
  · lift a to ℝ using ⟨hatop, habot⟩
    have hmax : number a + (number b - number a) = number b := by
      have hadd : number a + number (b - a) = number (a + (b - a)) := if_neg (by simp)
      rw [number_sub_coe, hadd, add_comm, EReal.sub_add_cancel]
    rw [hmax]
    exact decide_eq_false hb.not_ge

end ExactValue

end Readout
