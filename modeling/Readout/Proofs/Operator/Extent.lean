import Mathlib.Tactic.Linarith
import Readout.Proofs.Operator.Validity
import Readout.Proofs.Value.Exact

/-!
# Extents of reductions

Where the results of reductions lie in exact arithmetic.
-/
namespace Readout.Reduction

section Sums

/-- A fold that adds is a sum. -/
theorem foldl_add (g : ℕ × ℝ → ℝ) (S : Selected ℝ) (a : ℝ) :
    S.foldl (fun t e => t + g e) a = a + (S.map g).sum := by
  induction S generalizing a with
  | nil => simp
  | cons e S ih => simp [ih, add_assoc]

theorem total_real (S : Selected ℝ) : total S = (S.map Prod.snd).sum :=
  (foldl_add Prod.snd S 0).trans (zero_add _)

theorem moment_real (S : Selected ℝ) : moment S = (S.map fun e => (e.1 : ℝ) * e.2).sum :=
  (foldl_add _ S 0).trans (zero_add _)

theorem squares_real (S : Selected ℝ) (m : ℝ) :
    squares S m = (S.map fun e => (e.2 - m) * (e.2 - m)).sum :=
  (foldl_add _ S 0).trans (zero_add _)

theorem weightedSquares_real (S : Selected ℝ) (m : ℝ) :
    weightedSquares S m = (S.map fun e => e.2 * ((e.1 : ℝ) - m) * ((e.1 : ℝ) - m)).sum :=
  (foldl_add _ S 0).trans (zero_add _)

variable {l : List ℝ} {a b : ℝ}

theorem mul_length_le_sum (h : ∀ x ∈ l, a ≤ x) : l.length * a ≤ l.sum := by
  simpa using l.card_nsmul_le_sum a h

theorem sum_lt_mul_length (hl : l ≠ []) (h : ∀ x ∈ l, x < b) : l.sum < l.length * b := by
  simpa using List.sum_lt_sum_of_ne_nil hl id (fun _ => b) h

theorem total_bounds {S : Selected ℝ} (hne : S ≠ []) (h : ∀ e ∈ S, a ≤ e.2 ∧ e.2 < b) :
    S.length * a ≤ total S ∧ total S < S.length * b := by
  have hmem : ∀ x ∈ S.map Prod.snd, a ≤ x ∧ x < b := by simpa using fun x i hx => h (i, x) hx
  have hlow := mul_length_le_sum fun x hx => (hmem x hx).1
  have hhigh := sum_lt_mul_length (by simpa using hne) fun x hx => (hmem x hx).2
  rw [total_real]
  simpa using And.intro hlow hhigh

end Sums

section Weights

variable {ι : Type} (w x : ι → ℝ)

def weight (l : List ι) : ℝ := (l.map w).sum

def lever (l : List ι) : ℝ := (l.map fun e => w e * x e).sum

def inertia (l : List ι) (m : ℝ) : ℝ := (l.map fun e => w e * ((x e - m) * (x e - m))).sum

theorem inertia_eq (l : List ι) (m : ℝ) :
    inertia w x l m = inertia w x l 0 - 2 * m * lever w x l + m * m * weight w l := by
  induction l with
  | nil => simp [inertia, lever, weight]
  | cons e l ih =>
    simp only [inertia, lever, weight, List.map_cons, List.sum_cons] at ih ⊢
    rw [ih]
    ring

variable {w x} {l : List ι} {a b : ℝ} (hw : ∀ e ∈ l, 0 ≤ w e)

include hw

theorem inertia_mono {c r : ℝ} (hx : ∀ e ∈ l, (x e - c) * (x e - c) ≤ r) :
    inertia w x l c ≤ weight w l * r := by
  rw [weight, inertia, ← List.sum_map_mul_right]
  exact List.sum_le_sum fun e he => mul_le_mul_of_nonneg_left (hx e he) (hw e he)

variable (hx : ∀ e ∈ l, a ≤ x e ∧ x e ≤ b)

include hx

theorem lever_bounds : weight w l * a ≤ lever w x l ∧ lever w x l ≤ weight w l * b := by
  rw [weight, lever, ← List.sum_map_mul_right, ← List.sum_map_mul_right]
  constructor <;> refine List.sum_le_sum fun e he => mul_le_mul_of_nonneg_left ?_ (hw e he)
  · exact (hx e he).1
  · exact (hx e he).2

/-- The spread about the centre is at most the square of half of the width. -/
theorem inertia_le (hpos : 0 < weight w l) : inertia w x l (lever w x l / weight w l) ≤
    weight w l * ((b - a) / 2 * ((b - a) / 2)) := by
  have hmiddle : inertia w x l ((a + b) / 2) ≤ weight w l * ((b - a) / 2 * ((b - a) / 2)) :=
    inertia_mono hw fun e he => by nlinarith [hx e he]
  obtain ⟨m, hm⟩ : ∃ m, lever w x l / weight w l = m := ⟨_, rfl⟩
  have hcentre : lever w x l = m * weight w l := (div_eq_iff hpos.ne').1 hm
  rw [hm, inertia_eq, hcentre]
  rw [inertia_eq, hcentre] at hmiddle
  -- no point has less inertia than the centre
  have hleast := mul_nonneg hpos.le (mul_self_nonneg ((a + b) / 2 - m))
  linarith

end Weights

section Spread

variable {S : Selected ℝ} {a b : ℝ} (hne : S ≠ [])

include hne

/-- The highest element keeps a distance to an upper bound. -/
theorem exists_lt_bound (hb : ∀ e ∈ S, e.2 < b) : ∃ c < b, ∀ e ∈ S, e.2 ≤ c := by
  obtain ⟨e, he, hmax⟩ := S.toFinset.exists_max_image Prod.snd (by simpa using hne)
  exact ⟨e.2, hb e (by simpa using he), fun x hx => hmax x (by simpa using hx)⟩

/-- The spread about the mean. -/
theorem squares_le (h : ∀ e ∈ S, a ≤ e.2 ∧ e.2 ≤ b) :
    squares S (meanOf S) / S.length ≤ (b - a) / 2 * ((b - a) / 2) := by
  have hpos : (0 : ℝ) < S.length := Nat.cast_pos.2 (List.length_pos_of_ne_nil hne)
  have hweight : weight (fun _ => 1) S = S.length := by simp [weight]
  have hlever : lever (fun _ => 1) Prod.snd S = total S := by simp [lever, total_real]
  have hinertia : inertia (fun _ => 1) Prod.snd S (meanOf S) = squares S (meanOf S) := by
    simp [inertia, squares_real]
  have hmean : meanOf S = total S / (S.length : ℝ) := rfl
  have hle := inertia_le (w := fun _ => 1) (fun _ _ => zero_le_one) h (by rwa [hweight])
  rw [hlever, hweight, ← hmean, hinertia] at hle
  rwa [div_le_iff₀ hpos, mul_comm]

omit hne in
theorem meanPosition_real {m : ℝ} (hm : meanPosition? S = some m) :
    total S ≠ 0 ∧ moment S / total S = m := by
  rw [meanPosition?] at hm
  split at hm
  · cases hm
  · next hzero => exact ⟨of_decide_eq_false (Bool.eq_false_iff.2 hzero), Option.some.inj hm⟩

omit hne in
/-- Where no two elements differ in sign, the weighted mean of the indices and the spread about it
are those of a distribution of the indices. -/
theorem position_bounds {size : ℕ} {m : ℝ} (hindex : ∀ e ∈ S, e.1 < size)
    (hsign : (∀ e ∈ S, 0 ≤ e.2) ∨ ∀ e ∈ S, e.2 ≤ 0) (hm : meanPosition? S = some m) :
    (0 ≤ m ∧ m ≤ size - 1) ∧ 0 ≤ weightedSquares S m / total S ∧
      weightedSquares S m / total S ≤ (size - 1 : ℝ) / 2 * ((size - 1) / 2) := by
  obtain ⟨htotal, hm⟩ := meanPosition_real hm
  obtain ⟨s, hs, hw⟩ : ∃ s : ℝ, s ≠ 0 ∧ ∀ e ∈ S, 0 ≤ s * e.2 := by
    rcases hsign with h | h
    · exact ⟨1, one_ne_zero, by simpa using h⟩
    · exact ⟨-1, by norm_num, by simpa using h⟩
  have hweight : weight (fun e => s * e.2) S = s * total S := by
    rw [weight, total_real, List.sum_map_mul_left]
  have hlever : lever (fun e => s * e.2) (fun e => (e.1 : ℝ)) S = s * moment S := by
    rw [lever, moment_real, ← List.sum_map_mul_left]
    exact congrArg List.sum (List.map_congr_left fun e _ => by ring)
  have hinertia : inertia (fun e => s * e.2) (fun e => (e.1 : ℝ)) S m =
      s * weightedSquares S m := by
    rw [inertia, weightedSquares_real, ← List.sum_map_mul_left]
    exact congrArg List.sum (List.map_congr_left fun e _ => by ring)
  have hpos : 0 < weight (fun e => s * e.2) S := by
    refine lt_of_le_of_ne (List.sum_nonneg fun x hx => ?_) ?_
    · obtain ⟨e, he, rfl⟩ := List.mem_map.1 hx
      exact hw e he
    · rw [hweight]
      exact (mul_ne_zero hs htotal).symm
  have hx : ∀ e ∈ S, (0 : ℝ) ≤ e.1 ∧ (e.1 : ℝ) ≤ size - 1 := fun e he => by
    have hlt : (e.1 : ℝ) + 1 ≤ size := by exact_mod_cast hindex e he
    exact ⟨Nat.cast_nonneg _, by linarith⟩
  have hmean : lever (fun e => s * e.2) (fun e => (e.1 : ℝ)) S /
      weight (fun e => s * e.2) S = m := by
    rw [hlever, hweight, mul_div_mul_left _ _ hs, hm]
  have hspread : inertia (fun e => s * e.2) (fun e => (e.1 : ℝ)) S m / weight (fun e => s * e.2) S =
      weightedSquares S m / total S := by
    rw [hinertia, hweight, mul_div_mul_left _ _ hs]
  obtain ⟨hlow, hhigh⟩ := lever_bounds hw hx
  have hle := inertia_le hw hx hpos
  rw [hmean, sub_zero] at hle
  rw [(div_eq_iff hpos.ne').1 hmean] at hlow hhigh
  rw [← hspread]
  refine ⟨⟨?_, ?_⟩, div_nonneg (List.sum_nonneg fun y hy => ?_) hpos.le, ?_⟩
  · exact le_of_mul_le_mul_right (by linarith) hpos
  · exact le_of_mul_le_mul_right (by linarith) hpos
  · obtain ⟨e, he, rfl⟩ := List.mem_map.1 hy
    exact mul_nonneg (hw e he) (mul_self_nonneg _)
  · rwa [div_le_iff₀ hpos, mul_comm]

end Spread

/-- The elements have ascending indices below a size and lie in a half-open interval. -/
structure Inside (S : Selected ℝ) (size : ℕ) (lower upper : EReal) : Prop where
  ascending : (S.map Prod.fst).Pairwise (· < ·)
  index_lt : ∀ e ∈ S, e.1 < size
  bounds : ∀ e ∈ S, lower ≤ (e.2 : EReal) ∧ (e.2 : EReal) < upper

/-- Where the declared limits of a reduction hold, from the size of the input, the number of
selected elements and the limits of the input. -/
def Covers (r : Reduction) (size count : ℕ) (lower upper : EReal) : Prop :=
  match r with
  | min | max | mean | minX | maxX => True
  | multiplicity => count < size
  | sum => 0 ≤ lower ∨ size = 1
  | sigma => (upper - lower) * (upper - lower) ≤ 4 * upper ∨ size = 1 ∧ 0 < upper
  | meanX => 0 ≤ lower ∨ upper ≤ 0 ∨ size = 1
  | sigmaX => (0 ≤ lower ∨ upper ≤ 0) ∧ size ≤ 5 ∨ size = 1

namespace Inside

variable {S : Selected ℝ} {size : ℕ} {lower upper : EReal} (h : Inside S size lower upper)
  (hne : S ≠ [])

include h

theorem length_le : S.length ≤ size := by
  have hrange : S.map Prod.fst ⊆ List.range size := fun i hi => by
    obtain ⟨e, he, rfl⟩ := List.mem_map.1 hi
    exact List.mem_range.2 (h.index_lt e he)
  have hnodup : (S.map Prod.fst).Nodup := h.ascending.imp Nat.ne_of_lt
  simpa using (List.subperm_of_subset hnodup hrange).length_le

include hne

/-- Real bounds of the elements, the limits themselves where these are real. -/
theorem exists_bounds : ∃ a b : ℝ, lower ≤ a ∧ (b : EReal) ≤ upper ∧ (∀ e ∈ S, a ≤ e.2 ∧ e.2 < b) ∧
    (lower ≠ ⊥ → (a : EReal) = lower) ∧ (upper ≠ ⊤ → (b : EReal) = upper) := by
  obtain ⟨e, he⟩ := List.exists_mem_of_ne_nil S hne
  have hfinite := List.finite_toSet (S.map Prod.snd)
  have hmem : ∀ e ∈ S, e.2 ∈ {x | x ∈ S.map Prod.snd} := fun e he => List.mem_map_of_mem he
  obtain ⟨a, hle, hlow, ha⟩ : ∃ a : ℝ, lower ≤ a ∧ (∀ e ∈ S, a ≤ e.2) ∧
      (lower ≠ ⊥ → (a : EReal) = lower) := by
    by_cases hbot : lower = ⊥
    · obtain ⟨a, ha⟩ := hfinite.bddBelow
      exact ⟨a, hbot ▸ bot_le, fun e he => ha (hmem e he), fun h => absurd hbot h⟩
    · have htop : lower ≠ ⊤ := ((h.bounds e he).1.trans_lt (EReal.coe_lt_top _)).ne
      have hreal := EReal.coe_toReal htop hbot
      refine ⟨lower.toReal, hreal.ge, fun e he => ?_, fun _ => hreal⟩
      exact_mod_cast hreal.le.trans (h.bounds e he).1
  obtain ⟨b, hle', hhigh, hb⟩ : ∃ b : ℝ, (b : EReal) ≤ upper ∧ (∀ e ∈ S, e.2 < b) ∧
      (upper ≠ ⊤ → (b : EReal) = upper) := by
    by_cases htop : upper = ⊤
    · obtain ⟨b, hb⟩ := hfinite.bddAbove
      exact ⟨b + 1, htop ▸ le_top, fun e he => (hb (hmem e he)).trans_lt (lt_add_one b),
        fun h => absurd htop h⟩
    · have hbot : upper ≠ ⊥ := ((EReal.bot_lt_coe _).trans (h.bounds e he).2).ne'
      have hreal := EReal.coe_toReal htop hbot
      refine ⟨upper.toReal, hreal.le, fun e he => ?_, fun _ => hreal⟩
      exact_mod_cast (h.bounds e he).2.trans_le hreal.ge
  exact ⟨a, b, hle, hle', fun e he => ⟨hlow e he, hhigh e he⟩, ha, hb⟩

theorem mean_bounds : lower ≤ (meanOf S : ℝ) ∧ ((meanOf S : ℝ) : EReal) < upper := by
  obtain ⟨a, b, hle, hle', hab, -⟩ := h.exists_bounds hne
  obtain ⟨hlow, hhigh⟩ := total_bounds hne hab
  have hpos : (0 : ℝ) < S.length := Nat.cast_pos.2 (List.length_pos_of_ne_nil hne)
  have hmean : meanOf S = total S / (S.length : ℝ) := rfl
  have ha : a ≤ meanOf S := by rwa [hmean, le_div_iff₀ hpos, mul_comm]
  have hb : meanOf S < b := by rwa [hmean, div_lt_iff₀ hpos, mul_comm]
  exact ⟨hle.trans (by exact_mod_cast ha), lt_of_lt_of_le (by exact_mod_cast hb) hle'⟩

theorem total_bounds (hc : 0 ≤ lower ∨ size = 1) :
    lower ≤ (total S : ℝ) ∧ ((total S : ℝ) : EReal) < size * upper := by
  obtain ⟨a, b, hle, hle', hab, ha, -⟩ := h.exists_bounds hne
  obtain ⟨hlow, hhigh⟩ := Reduction.total_bounds hne hab
  have hlen := h.length_le
  have hpos := List.length_pos_of_ne_nil hne
  rcases hc with hnonneg | rfl
  · have hbot : lower ≠ ⊥ := (EReal.bot_lt_zero.trans_le hnonneg).ne'
    have hzero : 0 ≤ a := by exact_mod_cast (ha hbot).symm ▸ hnonneg
    obtain ⟨e, he⟩ := List.exists_mem_of_ne_nil S hne
    have hb : 0 ≤ b := hzero.trans ((hab e he).1.trans (hab e he).2.le)
    have hone : (1 : ℝ) ≤ S.length := by exact_mod_cast hpos
    have hmany : (S.length : ℝ) ≤ size := by exact_mod_cast hlen
    have hall : ((total S : ℝ) : EReal) < ((size * b : ℝ) : EReal) := by
      exact_mod_cast hhigh.trans_le (mul_le_mul_of_nonneg_right hmany hb)
    refine ⟨hle.trans ?_, hall.trans_le ?_⟩
    · exact_mod_cast (le_mul_of_one_le_left hzero hone).trans hlow
    · rw [EReal.coe_mul, EReal.coe_coe_eq_natCast]
      exact mul_le_mul_of_nonneg_left hle' (by positivity)
  · have hone : S.length = 1 := by omega
    rw [hone, Nat.cast_one, one_mul] at hlow hhigh
    rw [Nat.cast_one, one_mul]
    exact ⟨hle.trans (by exact_mod_cast hlow), lt_of_lt_of_le (by exact_mod_cast hhigh) hle'⟩

theorem variance_bounds (hc : sigma.Covers size S.length lower upper) :
    0 ≤ squares S (meanOf S) / S.length ∧
      ((squares S (meanOf S) / S.length : ℝ) : EReal) < upper := by
  have hpos : (0 : ℝ) < S.length := Nat.cast_pos.2 (List.length_pos_of_ne_nil hne)
  refine ⟨div_nonneg ?_ hpos.le, ?_⟩
  · rw [squares_real]
    refine List.sum_nonneg fun x hx => ?_
    obtain ⟨e, -, rfl⟩ := List.mem_map.1 hx
    exact mul_self_nonneg _
  obtain ⟨a, b, hle, hle', hab, ha, hb⟩ := h.exists_bounds hne
  by_cases htop : upper = ⊤
  · exact htop ▸ EReal.coe_lt_top _
  rcases hc with hwide | ⟨rfl, hupper⟩
  · have hbot : lower ≠ ⊥ := by
      rintro rfl
      rw [← hb htop, EReal.coe_sub_bot, EReal.top_mul_top, top_le_iff] at hwide
      exact EReal.coe_ne_top (4 * b) hwide
    rw [← ha hbot, ← hb htop] at hwide
    have hwide : (b - a) * (b - a) ≤ 4 * b := by
      have hfour : ((4 : ℝ) : EReal) = 4 := rfl
      rw [← hfour] at hwide
      exact_mod_cast hwide
    obtain ⟨c, hcb, hc⟩ := exists_lt_bound hne fun e he => (hab e he).2
    have hle := squares_le hne fun e he => ⟨(hab e he).1, hc e he⟩
    obtain ⟨e, he⟩ := List.exists_mem_of_ne_nil S hne
    have hac : a ≤ c := (hab e he).1.trans (hc e he)
    rw [← hb htop]
    exact_mod_cast hle.trans_lt (by nlinarith)
  · have hone : S.length = 1 := by
      have hlen := h.length_le
      have hpos := List.length_pos_of_ne_nil hne
      omega
    obtain ⟨e, rfl⟩ := List.length_eq_one_iff.1 hone
    have hmean : meanOf [e] = e.2 := by
      change (0 + e.2) / ((1 : ℕ) : ℝ) = e.2
      simp
    simpa [squares_real, hmean] using hupper

omit hne in
theorem length_eq_one (hone : size = 1) (hne : S ≠ []) : ∃ v : ℝ, S = [(0, v)] := by
  have hlen := h.length_le
  have hpos := List.length_pos_of_ne_nil hne
  obtain ⟨e, rfl⟩ := List.length_eq_one_iff.1 (show S.length = 1 by omega)
  have hzero : e.1 = 0 := by
    have hlt := h.index_lt e List.mem_cons_self
    omega
  exact ⟨e.2, by rw [← hzero]⟩

omit hne in
theorem one_sign (hc : 0 ≤ lower ∨ upper ≤ 0) : (∀ e ∈ S, 0 ≤ e.2) ∨ ∀ e ∈ S, e.2 ≤ 0 := by
  refine hc.imp (fun hlow e he => ?_) fun hhigh e he => ?_
  · exact_mod_cast hlow.trans (h.bounds e he).1
  · exact_mod_cast ((h.bounds e he).2.trans_le hhigh).le

omit hne in
theorem index_bounds {e : ℕ × ℝ} (he : e ∈ S) :
    (0 : EReal) ≤ ((e.1 : ℝ) : EReal) ∧ ((e.1 : ℝ) : EReal) < size := by
  have hlt := h.index_lt e he
  rw [EReal.coe_coe_eq_natCast]
  exact ⟨by positivity, by exact_mod_cast hlt⟩

theorem meanX_bounds {m : ℝ} (hc : meanX.Covers size S.length lower upper)
    (hm : meanPosition? S = some m) : (0 : EReal) ≤ m ∧ (m : EReal) < size := by
  have hreal : 0 ≤ m ∧ m < size := by
    rcases or_assoc.2 hc with hsign | hone
    · obtain ⟨⟨hlow, hhigh⟩, -⟩ := position_bounds h.index_lt (h.one_sign hsign) hm
      exact ⟨hlow, by linarith⟩
    · obtain ⟨v, rfl⟩ := h.length_eq_one hone hne
      obtain ⟨-, rfl⟩ := meanPosition_real hm
      simp [moment_real, hone]
  rw [← EReal.coe_coe_eq_natCast]
  exact ⟨by exact_mod_cast hreal.1, by exact_mod_cast hreal.2⟩

theorem sigmaX_bounds {m : ℝ} (hc : sigmaX.Covers size S.length lower upper)
    (hm : meanPosition? S = some m) : 0 ≤ weightedSquares S m / total S ∧
      ((weightedSquares S m / total S : ℝ) : EReal) < size := by
  have hreal : 0 ≤ weightedSquares S m / total S ∧ weightedSquares S m / total S < size := by
    rcases hc with ⟨hsign, hfive⟩ | hone
    · obtain ⟨-, hlow, hhigh⟩ := position_bounds h.index_lt (h.one_sign hsign) hm
      refine ⟨hlow, hhigh.trans_lt ?_⟩
      have hsize := (List.length_pos_of_ne_nil hne).trans_le h.length_le
      interval_cases size <;> norm_num
    · obtain ⟨v, rfl⟩ := h.length_eq_one hone hne
      obtain ⟨-, rfl⟩ := meanPosition_real hm
      simp [weightedSquares_real, moment_real, hone]
  rw [← EReal.coe_coe_eq_natCast]
  exact ⟨hreal.1, by exact_mod_cast hreal.2⟩

end Inside

/-- In exact arithmetic a result lies inside of the declared limits. -/
theorem apply_within {r : Reduction} {S : Selected ℝ} {size : ℕ} {lower upper : EReal} {x : ℝ}
    (h : Inside S size lower upper) (hc : r.Covers size S.length lower upper)
    (hx : r.apply S = some x) :
    (r.limits size lower upper).1 ≤ x ∧ (x : EReal) < (r.limits size lower upper).2 := by
  by_cases hr : r = multiplicity
  · subst hr
    obtain rfl : (S.length : ℝ) = x := Option.some.inj hx
    have hlt : (S.length : EReal) < size := by exact_mod_cast show S.length < size from hc
    rw [EReal.coe_coe_eq_natCast]
    exact ⟨Nat.cast_nonneg' _, hlt⟩
  · have hne : S ≠ [] := fun hS => by
      subst hS
      cases r <;> simp [apply] at hx hr
    obtain ⟨l, hl, hlow⟩ := exists_best (fun v b => Scalar.below v b) hne
    obtain ⟨g, hg, hhigh⟩ := exists_best (fun v b => Scalar.below b v) hne
    cases r <;> simp [apply, hne, lowest?_eq, highest?_eq, hlow, hhigh] at hx
    case multiplicity => exact absurd rfl hr
    case sum => exact hx ▸ h.total_bounds hne hc
    case min => exact hx ▸ h.bounds l hl
    case max => exact hx ▸ h.bounds g hg
    case mean => exact hx ▸ h.mean_bounds hne
    case minX => exact hx ▸ h.index_bounds hl
    case maxX => exact hx ▸ h.index_bounds hg
    case meanX => exact h.meanX_bounds hne hc hx
    case sigma =>
      obtain ⟨hlow, hhigh⟩ := h.variance_bounds hne hc
      exact hx ▸ Scalar.sqrt_bounds hlow hhigh
    case sigmaX =>
      obtain ⟨m, hm, rfl⟩ := hx
      obtain ⟨hlow, hhigh⟩ := h.sigmaX_bounds hne hc hm
      exact Scalar.sqrt_bounds hlow hhigh

end Readout.Reduction
