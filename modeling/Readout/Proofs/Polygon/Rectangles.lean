import Readout.Proofs.Graph.Membership
import Readout.Proofs.Polygon.Walks
import Readout.Proofs.Value.Differences

/-!
# Rectangles as polygons

A polygon through the four corners of a rectangle decides like two windows, although it computes
where its edges pass the height of the point. Level edges are passed by no height. On an upright
edge the interpolation adds a zero to the edge's own place, whatever the rounding, because the
height of the point is closer to an end of the edge than the ends are to each other. So each side
of the rectangle asks for one bound of a window: the lower one is inside, the upper one is not.
-/
namespace Readout

open Value

namespace Window

/-- A point is in a window exactly if it is below one of its bounds. -/
theorem contains_eq_bne {w : Window Value} (h : below w.min w.max = true) (v : Value) :
    w.contains v = (below v w.min != below v w.max) := by
  obtain ⟨hmin, hmax, hlt⟩ := below_iff_number.1 h
  rw [contains, Bool.eq_iff_iff, Bool.and_eq_true]
  change atMost w.min v = true ∧ below v w.max = true ↔ _
  cases hv : v.isNaN with
  | true => simp [atMost, below, hv]
  | false =>
    rcases lt_or_ge v.number w.min.number with hlow | hge
    · have hmin' : below v w.min = true := below_iff_number.2 ⟨hv, hmin, hlow⟩
      have hmax' : below v w.max = true := below_iff_number.2 ⟨hv, hmax, hlow.trans hlt⟩
      simp [hmin', hmax', atMost_iff_number, hlow]
    · have hmin' : below v w.min = false := Bool.eq_false_iff.2 fun h =>
        (below_iff_number.1 h).2.2.not_ge hge
      have hle : atMost w.min v = true := atMost_iff_number.2 ⟨hmin, hv, hge⟩
      simp [hmin', hle]

end Window

namespace Polygon

variable {u v a b c d : Value}

theorem crosses_level (u v a b c : Value) : crosses u v (a, c) (b, c) = false := by
  simp [crosses]

theorem spanned (hc : c.isFinite = true) (hd : d.isFinite = true) (hlow : below v c = false)
    (hhigh : below v d = true) :
    v.isFinite = true ∧ c.fraction ≤ v.fraction ∧ v.fraction < d.fraction := by
  obtain ⟨hv, -, hlt⟩ := below_iff_number.1 hhigh
  have hge : c.number ≤ v.number := le_of_not_gt fun h => by
    rw [below_iff_number.2 ⟨hv, isNaN_of_isFinite hc, h⟩] at hlow
    cases hlow
  rw [number_of_isFinite hc] at hge
  have hfinite := isFinite_of_number hv ((EReal.bot_lt_coe _).trans_le hge).ne' hlt.ne_top
  refine ⟨hfinite, ?_, (below_iff_fraction hfinite hd).1 hhigh⟩
  rw [number_of_isFinite hfinite] at hge
  exact_mod_cast hge

theorem passed_upright (ha : a.isFinite = true) (hc : c.isFinite = true) (hd : d.isFinite = true)
    (hv : v.isFinite = true) (hnear : |v.fraction - c.fraction| ≤ |d.fraction - c.fraction|)
    (hne : d.fraction ≠ c.fraction) (hheight : (d - c).isFinite = true) :
    ((a - a) * (v - c) / (d - c) + a).Denotes a.number := by
  have hrise := isFinite_sub_of_le hv hc hd hc hnear hheight
  have hproduct := denotes_zero_mul (denotes_sub_self ha) hrise
  have hquotient := denotes_zero_div hproduct hheight
    fun hzero => hne ((denotes_sub_zero_iff hd hc hheight).1 hzero)
  exact denotes_zero_add hquotient ha

theorem below_of_denotes (ha : a.isFinite = true) (hb : b.Denotes a.number) :
    below u b = below u a := by
  rw [Bool.eq_iff_iff, below_iff_number, below_iff_number, hb.1, hb.2, isNaN_of_isFinite ha]

theorem crosses_upright (ha : a.isFinite = true) (hc : c.isFinite = true) (hd : d.isFinite = true)
    (hheight : (d - c).isFinite = true) :
    crosses u v (a, c) (a, d) = ((below v c != below v d) && below u a) := by
  have hcross : crosses u v (a, c) (a, d) =
      ((below v c != below v d) && below u ((a - a) * (v - c) / (d - c) + a)) := rfl
  rw [hcross]
  -- the place of the crossing matters only between the ends, whichever of them is the lower one
  cases hlow : below v c <;> cases hhigh : below v d
  · simp
  · obtain ⟨hv, hge, hlt⟩ := spanned hc hd hlow hhigh
    have hnear : |v.fraction - c.fraction| ≤ |d.fraction - c.fraction| := by
      rw [abs_of_nonneg (by linarith), abs_of_nonneg (by linarith)]
      linarith
    rw [below_of_denotes ha (passed_upright ha hc hd hv hnear (by linarith) hheight)]
  · obtain ⟨hv, hge, hlt⟩ := spanned hd hc hhigh hlow
    have hnear : |v.fraction - c.fraction| ≤ |d.fraction - c.fraction| := by
      rw [abs_of_nonpos (by linarith), abs_of_nonpos (by linarith)]
      linarith
    rw [below_of_denotes ha (passed_upright ha hc hd hv hnear (by linarith) hheight)]
  · simp

/-- The corners of a rectangle, which may be read either way up. -/
def corners (x y : Window Value) : List (Value × Value) :=
  [(x.min, y.min), (x.max, y.min), (x.max, y.max), (x.min, y.max)]

/-- Finite bounds in order, and a height that does not overflow. -/
structure Bounded (x y : Window Value) : Prop where
  left : x.min.isFinite = true
  right : x.max.isFinite = true
  bottom : y.min.isFinite = true
  top : y.max.isFinite = true
  wide : below x.min x.max = true
  high : below y.min y.max = true
  height : (y.max - y.min).isFinite = true

theorem contains_upright (ha : a.isFinite = true) (hb : b.isFinite = true)
    (hc : c.isFinite = true) (hd : d.isFinite = true) (hdc : (d - c).isFinite = true)
    (hcd : (c - d).isFinite = true) :
    contains u v [(a, c), (b, c), (b, d), (a, d)] =
      ((below v c != below v d) && (below u a != below u b)) := by
  have hleft : crosses u v (a, c) (a, d) = _ := crosses_upright ha hc hd hdc
  have hright : crosses u v (b, d) (b, c) = _ := crosses_upright hb hd hc hcd
  simp only [contains, crossings, List.getLast?_cons_cons, List.getLast?_singleton, hleft, hright,
    crosses_level, List.length_cons, List.length_nil]
  cases below v c <;> cases below v d <;> cases below u a <;> cases below u b <;> rfl

variable {x y : Window Value} {polygon : List (Value × Value)}

theorem contains_corners (h : Bounded x y)
    (hp : polygon ~r corners x y ∨ polygon ~r (corners x y).reverse) :
    contains u v polygon = (x.contains u && y.contains v) := by
  have hdown : (y.min - y.max).isFinite = true :=
    isFinite_sub_of_le h.bottom h.top h.top h.bottom (abs_sub_comm _ _).le h.height
  rw [Window.contains_eq_bne h.wide, Window.contains_eq_bne h.high, Bool.and_comm]
  rcases hp with hp | hp
  · rw [← contains_rotated hp]
    exact contains_upright h.left h.right h.bottom h.top h.height hdown
  · have hreverse : (corners x y).reverse =
        [(x.min, y.max), (x.max, y.max), (x.max, y.min), (x.min, y.min)] := rfl
    rw [← contains_rotated hp, hreverse,
      contains_upright h.left h.right h.top h.bottom hdown h.height, bne_comm]

theorem inPolygon_corners (h : Bounded x y)
    (hp : polygon ~r corners x y ∨ polygon ~r (corners x y).reverse) (u v : Value) :
    Kind.inPolygon polygon u v = (x.admits u && y.admits v) := by
  rw [Kind.inPolygon, contains_corners h hp, Window.admits, Window.admits]
  cases u.isValid <;> cases v.isValid <;> simp

end Polygon

theorem Kind.Leaves.polygonCondition {polygon : List (Value × Value)} {u v : Value} {bit : Nat}
    {outs : List (List Value)} {bits : ConditionBits}
    (h : (Kind.polygonCondition polygon bit).Leaves [[u], [v]] outs bits) :
    bits.test bit = Kind.inPolygon polygon u v := by
  obtain ⟨inputs, outputs, gate, during, after, hc, -, rfl⟩ := h.computed rfl
  rw [Bool.eq_iff_iff, hc.test bit rfl le_rfl (Nat.lt_succ_self bit)]
  simp [Passes, Kind.inPolygon, and_assoc]

namespace Graph

open Readout.Polygon

/-- The condition on a polygon and the one on a rectangle agree wherever the polygon runs round the
rectangle, from any corner and either way, whatever their inputs hold. -/
theorem rectangles_agree (x y : Window Value) (h : Bounded x y) (polygon : List (Value × Value))
    (hp : polygon ~r corners x y ∨ polygon ~r (corners x y).reverse) (u v : Value)
    (bit₁ bit₂ : Nat) (outs₁ outs₂ : List (List Value)) (bits₁ bits₂ : ConditionBits)
    (hpolygon : (Kind.polygonCondition polygon bit₁).Leaves [[u], [v]] outs₁ bits₁)
    (hrectangle : (Kind.rectangleCondition x y bit₂).Leaves [[u], [v]] outs₂ bits₂) :
    bits₁.test bit₁ = bits₂.test bit₂ := by
  rw [hpolygon.polygonCondition, hrectangle.rectangleCondition, inPolygon_corners h hp]

section Sample

open Workbench

def side : Window Value := ⟨.one, .two⟩

/-- The corners of the square from the third one on, the other way round. -/
def square : List (Value × Value) := (corners side side).reverse.rotate 2

/-- Both conditions on the lower left corner. -/
def cornered : Graph :=
  let first : Pipe := ⟨⟨0, 1⟩, ⟨4, 1⟩, ⟨8, 1⟩⟩
  let second : Pipe := ⟨⟨1, 1⟩, ⟨5, 1⟩, ⟨9, 1⟩⟩
  (after 4096 .batched [.pushPipe 3 .zero .two, .assign ⟨0, 3⟩ [.one, .one, .two],
    .makeOperator (.polygonCondition first second square), .addOperator 0 0 none,
    .makeOperator (.rectangleCondition first second side side), .addOperator 1 0 none]).plan.build
      .fresh

theorem rectangles_agree_square : Bounded side side ∧ square ~r (corners side side).reverse ∧
    ∃ outs₁ outs₂ bits₁ bits₂,
      (Kind.polygonCondition square 0).Leaves [[.one], [.one]] outs₁ bits₁ ∧
      (Kind.rectangleCondition side side 0).Leaves [[.one], [.one]] outs₂ bits₂ ∧
      bits₁.test 0 = bits₂.test 0 := by
  have hbounded : Bounded side side := ⟨by decide +kernel, by decide +kernel, by decide +kernel,
    by decide +kernel, by decide +kernel, by decide +kernel, by decide +kernel⟩
  have hrotated : square ~r (corners side side).reverse := (List.IsRotated.forall _ _)
  have hleaves : ∀ event kind, (cornered.occupant? event 0).map Operator.kind = some kind →
      cornered.moment? event 0 (.during (.endEvent event)) = some (.step true [[.one], [.one]]) →
      ∃ outs bits, kind.Leaves [[.one], [.one]] outs bits :=
    fun _ _ => Kind.exists_leaves ⟨4096, .batched, _, .fresh, [], rfl⟩
  obtain ⟨outs₁, bits₁, hpolygon⟩ := hleaves 0 (.polygonCondition square 0)
    (by with_unfolding_all rfl) (by decide +kernel)
  obtain ⟨outs₂, bits₂, hrectangle⟩ := hleaves 1 (.rectangleCondition side side 0)
    (by with_unfolding_all rfl) (by decide +kernel)
  exact ⟨hbounded, hrotated, outs₁, outs₂, bits₁, bits₂, hpolygon, hrectangle,
    rectangles_agree side side hbounded square (.inr hrotated) .one .one 0 0 outs₁ outs₂ bits₁
      bits₂ hpolygon hrectangle⟩

end Sample

end Graph

end Readout
