import Readout.Proofs.Polygon.Walks
import Readout.Proofs.Value.Exact

/-!
# Gates side by side

Two polygons that share an edge tile their union: in exact arithmetic every point of the union lies
in exactly one of them, on the shared edge, too. The edge is crossed or not, whichever way it is
taken, so it cuts both ways or neither.
-/
namespace Readout.Polygon

variable {x y : ℝ}

theorem crosses_self (p : ℝ × ℝ) : crosses x y p p = false := by simp [crosses]

/-- The height of the point is passed at the same place from either end. -/
theorem passed_symm {K : Type} [Field K] {y : K} {p q : K × K} (h : p.2 ≠ q.2) :
    (q.1 - p.1) * (y - p.2) / (q.2 - p.2) + p.1 = (p.1 - q.1) * (y - q.2) / (p.2 - q.2) + q.1 := by
  have hqp : q.2 - p.2 ≠ 0 := sub_ne_zero.2 h.symm
  have hpq : p.2 - q.2 ≠ 0 := sub_ne_zero.2 h
  field_simp
  ring

theorem crosses_symm (p q : ℝ × ℝ) : crosses x y p q = crosses x y q p := by
  by_cases h : p.2 = q.2
  · simp [crosses, h]
  · rw [crosses, crosses, passed_symm h, bne_comm]

theorem contains_iff_odd (polygon : List (ℝ × ℝ)) :
    contains x y polygon = (closedWalk (crosses x y) polygon % 2 == 1) :=
  contains_eq_odd crosses_symm crosses_self polygon

theorem contains_reverse (polygon : List (ℝ × ℝ)) :
    contains x y polygon.reverse = contains x y polygon := by
  rw [contains_iff_odd, contains_iff_odd, closedWalk_reverse crosses_symm]

theorem contains_repeat (before behind : List (ℝ × ℝ)) (p : ℝ × ℝ) :
    contains x y (before ++ p :: p :: behind) = contains x y (before ++ p :: behind) := by
  rw [contains_iff_odd, contains_iff_odd, closedWalk_repeat crosses_self]

theorem contains_chord (before between behind : List (ℝ × ℝ)) (p q : ℝ × ℝ) :
    contains x y (before ++ p :: between ++ q :: behind) =
      (contains x y (p :: between ++ [q]) ^^ contains x y (q :: behind ++ before ++ [p])) := by
  have hsum := closedWalk_chord (crosses x y) before between behind p q
  rw [crosses_symm q p] at hsum
  simp only [contains_iff_odd]
  generalize closedWalk _ (before ++ p :: between ++ q :: behind) = whole at *
  generalize closedWalk _ (p :: between ++ [q]) = cut at *
  generalize closedWalk _ (q :: behind ++ before ++ [p]) = rest at *
  have hparity : (cut + rest) % 2 = whole % 2 := by omega
  rcases Nat.mod_two_eq_zero_or_one cut with hcut | hcut <;>
    rcases Nat.mod_two_eq_zero_or_one rest with hrest | hrest <;>
      simp [← hparity, Nat.add_mod, hcut, hrest]

/-- The vertices from the `i`-th to the `j`-th one. -/
def piece (polygon : List (ℝ × ℝ)) (i j : Nat) : List (ℝ × ℝ) :=
  (polygon.drop i).take (j - i + 1)

/-- The vertices from the `j`-th one round to the `i`-th one. -/
def remainder (polygon : List (ℝ × ℝ)) (i j : Nat) : List (ℝ × ℝ) :=
  polygon.drop j ++ polygon.take (i + 1)

theorem exists_cut {polygon : List (ℝ × ℝ)} {i j : Nat} (hij : i < j) (hj : j < polygon.length) :
    ∃ before between behind p q, polygon = before ++ p :: between ++ q :: behind ∧
      piece polygon i j = p :: between ++ [q] ∧
      remainder polygon i j = q :: behind ++ before ++ [p] := by
  obtain ⟨front, q, behind, rfl, rfl⟩ : ∃ front q behind, polygon = front ++ q :: behind ∧
      front.length = j := ⟨polygon.take j, polygon[j], polygon.drop (j + 1), by simp, by simp; omega⟩
  obtain ⟨before, p, between, rfl, rfl⟩ : ∃ before p between, front = before ++ p :: between ∧
      before.length = i := ⟨front.take i, front[i], front.drop (i + 1), by simp, by simp; omega⟩
  refine ⟨before, between, behind, p, q, rfl, ?_, ?_⟩
  · simp [piece, List.take_append]
  · simp [remainder, List.take_append]

/-- A chord between any two vertices cuts a polygon into two, and every point of the whole lies in
exactly one of them. The polygon may begin at any of its vertices, run either way, and pause. -/
theorem contains_tiled (x y : ℝ) (polygon : List (ℝ × ℝ)) :
    (∀ i j, i < j → j < polygon.length →
      contains x y polygon =
        (contains x y (piece polygon i j) ^^ contains x y (remainder polygon i j)) ∧
      (contains x y polygon = true →
        (contains x y (piece polygon i j) = true ↔
          ¬ contains x y (remainder polygon i j) = true))) ∧
    (∀ other, polygon ~r other → contains x y other = contains x y polygon) ∧
    contains x y polygon.reverse = contains x y polygon ∧
    ∀ before p behind, polygon = before ++ p :: behind →
      contains x y (before ++ p :: p :: behind) = contains x y polygon := by
  refine ⟨fun i j hij hj => ?_, fun other h => contains_rotated h, contains_reverse polygon, ?_⟩
  · obtain ⟨before, between, behind, p, q, rfl, hpiece, hremainder⟩ := exists_cut hij hj
    have hchord := contains_chord (x := x) (y := y) before between behind p q
    rw [hpiece, hremainder]
    refine ⟨hchord, fun hin => ?_⟩
    rw [hchord] at hin
    generalize contains x y (p :: between ++ [q]) = cut at hin ⊢
    cases cut <;> simpa using hin
  · rintro before p behind rfl
    exact contains_repeat before behind p

theorem contains_tiled_square :
    let square : List (ℝ × ℝ) := [(0, 0), (4, 0), (4, 4), (0, 4)]
    contains 1 1 square = true ∧
      (contains 1 1 (piece square 0 2) = true ↔ ¬ contains 1 1 (remainder square 0 2) = true) := by
  intro square
  have hin : contains (1 : ℝ) 1 square = true := by
    norm_num [square, contains, crossings, crosses, Scalar.below]
  exact ⟨hin, ((contains_tiled 1 1 square).1 0 2 (by decide) (by simp [square])).2 hin⟩

end Readout.Polygon
