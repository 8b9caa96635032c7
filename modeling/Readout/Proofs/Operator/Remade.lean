import Readout.Proofs.Arena.Follows
import Readout.Proofs.Operator.Recipe
import Readout.Proofs.Operator.Tied

/-!
# Operators made elsewhere

A maker looks at the sizes and limits of its inputs, which are the same on both sides if the inputs
are tied. So it makes tied operators, wherever the arenas put what they own. The bits of conditions
are handed out later and do not count here.
-/
namespace Readout

variable {R : Ties} {n : Nat} {p q p' q' : Pipe}

namespace Pipe

/-- The limits of a new pipe can be written. -/
def Above (n : Nat) (p : Pipe) : Prop := n ≤ p.lower.offset ∧ n ≤ p.upper.offset

theorem follows_push (length : Nat) (lower upper : Value) :
    Follows R n (push length lower upper) (push length lower upper)
      fun R' p q => p.Tied R' q ∧ q.Above n := by
  refine (Follows.pushFilled length Value.invalid).bind ?_
  rintro R₁ d d' - ⟨hd, -⟩
  refine (Follows.pushFilled length lower).bind ?_
  rintro R₂ l l' h₂ ⟨hl, hln⟩
  refine (Follows.pushFilled length upper).bind ?_
  rintro R₃ u u' h₃ ⟨hu, hun⟩
  exact .pure ⟨⟨hd.mono fun i j hij => h₃ i j (h₂ i j hij), hl.mono h₃, hu⟩, hln, hun⟩

theorem follows_copyLimits (h : p.Tied R q) (h' : p'.Tied R q') (hn : q'.Above n) :
    Follows R n (copyLimits p p') (copyLimits q q') fun R' _ _ => R' = R := by
  refine (Follows.values h.lower).bind ?_
  rintro _ vs _ - ⟨rfl, rfl⟩
  refine (Follows.assign h'.lower hn.1 vs).bind ?_
  rintro _ - - - rfl
  refine (Follows.values h.upper).bind ?_
  rintro _ vs _ - ⟨rfl, rfl⟩
  exact Follows.assign h'.upper hn.2 vs

end Pipe

theorem Histogram.follows_push (bins : Nat) (axis : Axis) :
    Follows R n (push bins axis) (push bins axis) Tied := by
  rw [push]
  refine Follows.check Iff.rfl fun _ => ?_
  refine (Follows.pushSpan bins).bind ?_
  rintro R₁ d d' - ⟨hd, -⟩
  exact .pure ⟨hd, rfl⟩

theorem PlaneHistogram.follows_push (xBins yBins : Nat) (x y : Axis) :
    Follows R n (push xBins yBins x y) (push xBins yBins x y) Tied := by
  rw [push]
  refine Follows.check Iff.rfl fun _ => ?_
  refine (Follows.pushSpan _).bind ?_
  rintro R₁ d d' - ⟨hd, -⟩
  exact .pure ⟨hd, rfl⟩

namespace Operator

/-- Operators that are tied, whatever the bits that they will own. -/
abbrev Alike (R : Ties) (op op' : Operator) : Prop := op.Tied R (fun _ _ => True) op'

structure NamedInput.Tied (R : Ties) (i j : NamedInput) : Prop where
  pipe : i.pipe.Tied R j.pipe
  name : i.name = j.name
  unit : i.unit = j.unit

section Parts

theorem follows_sameSize (h : p.Tied R q) (h' : p'.Tied R q') (what : String) :
    Follows R n (sameSize p p' what) (sameSize q q' what) fun R' _ _ => R' = R := by
  have hp := h.length_eq
  have hp' := h'.length_eq
  rw [sameSize, sameSize, hp, hp']
  split
  · exact .throw
  · exact .pure rfl

theorem follows_scalars (h : p.Tied R q) (h' : p'.Tied R q') (what : String) :
    Follows R n (scalars p p' what) (scalars q q' what) fun R' _ _ =>
      R' = R ∧ q.length = 1 ∧ q'.length = 1 := by
  rw [scalars, scalars, h.length_eq, h'.length_eq]
  split
  · exact .throw
  · next hone => exact .pure ⟨rfl, by omega⟩

theorem follows_declareLimits (h : p.Tied R q) (hn : q.Above n) (lower upper : List Value) :
    Follows R n (declareLimits p lower upper) (declareLimits q lower upper)
      fun R' _ _ => R' = R := by
  refine (Follows.assign h.lower hn.1 lower).bind ?_
  rintro _ - - - rfl
  exact Follows.assign h.upper hn.2 upper

theorem follows_pushLike (h : p.Tied R q) : Follows R n (pushLike p) (pushLike q) Pipe.Tied := by
  rw [pushLike, pushLike, h.length_eq]
  refine (Pipe.follows_push _ _ _).bind ?_
  rintro R₁ o o' h₁ ⟨ho, hon⟩
  refine (Pipe.follows_copyLimits (h.mono h₁) ho hon).bind ?_
  rintro _ - - - rfl
  exact .pure ho

theorem follows_pushDeclared (d : Declaration) :
    Follows R n (pushDeclared d) (pushDeclared d) Pipe.Tied := by
  refine (Pipe.follows_push _ _ _).bind ?_
  rintro R₁ o o' - ⟨ho, hon⟩
  refine (follows_declareLimits ho hon _ _).bind ?_
  rintro _ - - - rfl
  exact .pure ho

theorem follows_limits {f : Pipe → Span} {is js : List Pipe}
    (h : List.Forall₂ (fun p q => (f p).Tied R (f q)) is js) :
    Follows R n (is.mapM fun p => Arena.values (f p)) (js.mapM fun p => Arena.values (f p))
      fun R' vs ws => R' = R ∧ vs = ws :=
  Follows.mapM_look (h.imp fun _ _ hpq => Follows.values hpq)

theorem follows_describeInput {i j : NamedInput} (h : i.Tied R j) :
    Follows R n (describeInput i) (describeInput j) fun R' d e => R' = R ∧ d = e := by
  refine (Follows.values h.pipe.lower).bind ?_
  rintro _ vs _ - ⟨rfl, rfl⟩
  refine (Follows.values h.pipe.upper).bind ?_
  rintro _ ws _ - ⟨rfl, rfl⟩
  exact .pure ⟨rfl, by rw [h.unit]⟩

theorem follows_pushOut (length : Nat) (lower upper : Value) :
    Follows R n (Pipe.push length lower upper) (Pipe.push length lower upper) Pipe.Tied :=
  (Pipe.follows_push length lower upper).weaken fun _ _ _ => And.left

/-- An operator with one new output. -/
theorem follows_makeWith {x y : Alloc Pipe} {kind kind' : Kind} {is js : List Pipe}
    (hx : Follows R n x y Pipe.Tied) (hi : List.Forall₂ (Pipe.Tied R) is js)
    (hk : kind.Tied R (fun _ _ => True) kind') :
    Follows R n (x >>= fun o => pure (make kind is [o])) (y >>= fun o => pure (make kind' js [o]))
      Alike := by
  refine hx.bind fun R₁ o o' h₁ ho => .pure ?_
  exact ⟨hi.imp fun _ _ hpq => hpq.mono h₁, .cons ho .nil, .none, hk.mono h₁ fun _ _ => id⟩

end Parts

theorem forall₂_one (h : p.Tied R q) : List.Forall₂ (Pipe.Tied R) [p] [q] := .cons h .nil

theorem forall₂_two (h : p.Tied R q) (h' : p'.Tied R q') :
    List.Forall₂ (Pipe.Tied R) [p, p'] [q, q'] := .cons h (.cons h' .nil)

theorem follows_calibrationEach (h : p.Tied R q) (units : List (Value × Value)) :
    Follows R n (calibrationEach p units) (calibrationEach q units) Alike := by
  rw [calibrationEach, calibrationEach, h.length_eq]
  refine Follows.check Iff.rfl fun _ => ?_
  refine (Pipe.follows_push _ _ _).bind ?_
  rintro R₁ o o' h₁ ⟨ho, hon⟩
  refine (Follows.pushSpan _).bind ?_
  rintro R₂ f f' h₂ ⟨hf, hfn⟩
  have hin := (h.mono h₁).mono h₂
  refine (Follows.values hin.lower).bind ?_
  rintro _ lower _ - ⟨rfl, rfl⟩
  refine (Follows.values hin.upper).bind ?_
  rintro _ upper _ - ⟨rfl, rfl⟩
  refine (follows_declareLimits (ho.mono h₂) hon _ _).bind ?_
  rintro _ - - - rfl
  refine (Follows.assign hf hfn _).bind ?_
  rintro _ - - - rfl
  exact .pure ⟨forall₂_one hin, forall₂_one (ho.mono h₂), .none, .calibration hf⟩

theorem follows_keepPrevious (h : p.Tied R q) (keepValid : Bool) :
    Follows R n (keepPrevious p keepValid) (keepPrevious q keepValid) Alike := by
  rw [keepPrevious, keepPrevious, h.length_eq]
  refine (Follows.pushFilled _ _).bind ?_
  rintro R₁ s s' h₁ ⟨hs, -⟩
  exact follows_makeWith (follows_pushLike (h.mono h₁)) (forall₂_one (h.mono h₁))
    (.keepPrevious keepValid hs)

theorem follows_difference (h : p.Tied R q) (h' : p'.Tied R q') :
    Follows R n (difference p p') (difference q q') Alike := by
  refine (follows_sameSize h h' "difference").bind ?_
  rintro _ - - - rfl
  rw [h.length_eq]
  refine (Pipe.follows_push _ _ _).bind ?_
  rintro R₁ o o' h₁ ⟨ho, hon⟩
  refine (Follows.values (h.mono h₁).lower).bind ?_
  rintro _ al _ - ⟨rfl, rfl⟩
  refine (Follows.values (h.mono h₁).upper).bind ?_
  rintro _ au _ - ⟨rfl, rfl⟩
  refine (Follows.values (h'.mono h₁).lower).bind ?_
  rintro _ bl _ - ⟨rfl, rfl⟩
  refine (Follows.values (h'.mono h₁).upper).bind ?_
  rintro _ bu _ - ⟨rfl, rfl⟩
  refine (follows_declareLimits ho hon _ _).bind ?_
  rintro _ - - - rfl
  exact .pure ⟨forall₂_two (h.mono h₁) (h'.mono h₁), forall₂_one ho, .none, .difference⟩

theorem follows_arrayMap {is js : List Pipe} (h : List.Forall₂ (Pipe.Tied R) is js)
    (mappings : List Mapping) :
    Follows R n (arrayMap is mappings) (arrayMap js mappings) Alike := by
  refine (Pipe.follows_push _ _ _).bind ?_
  rintro R₁ o o' h₁ ⟨ho, hon⟩
  have hin := h.imp fun _ _ hpq => Pipe.Tied.mono hpq h₁
  refine (follows_limits (hin.imp fun _ _ => Pipe.Tied.lower)).bind ?_
  rintro _ lower _ - ⟨rfl, rfl⟩
  refine (follows_limits (hin.imp fun _ _ => Pipe.Tied.upper)).bind ?_
  rintro _ upper _ - ⟨rfl, rfl⟩
  refine (follows_declareLimits ho hon _ _).bind ?_
  rintro _ - - - rfl
  exact .pure ⟨hin, forall₂_one ho, .none, .arrayMap mappings⟩

theorem follows_equation (h : p.Tied R q) (h' : p'.Tied R q') (e : Equation)
    (lower upper : Value) : Follows R n (equation p p' e lower upper) (equation q q' e lower upper)
      Alike := by
  refine (follows_sameSize h h' "binary equation").bind ?_
  rintro _ - - - rfl
  rw [h.length_eq]
  exact follows_makeWith (follows_pushOut _ _ _) (forall₂_two h h') (.equation e)

theorem follows_aggregate (h : p.Tied R q) (r : Reduction) (window : Window Value) :
    Follows R n (aggregate p r window) (aggregate q r window) Alike := by
  refine (Follows.values h.lower).bind ?_
  rintro _ lower _ - ⟨rfl, rfl⟩
  refine (Follows.values h.upper).bind ?_
  rintro _ upper _ - ⟨rfl, rfl⟩
  rw [h.length_eq]
  exact follows_makeWith (follows_pushOut _ _ _) (forall₂_one h) (.aggregate r window)

theorem follows_rangeFilter (h : p.Tied R q) (window : Window Value) (inverted : Bool) :
    Follows R n (rangeFilter p window inverted) (rangeFilter q window inverted) Alike :=
  follows_makeWith (follows_pushLike h) (forall₂_one h) (.rangeFilter window inverted)

theorem follows_rectangleFilter (h : p.Tied R q) (h' : p'.Tied R q')
    (xWindow yWindow : Window Value) (junction : Junction) :
    Follows R n (rectangleFilter p p' xWindow yWindow junction)
      (rectangleFilter q q' xWindow yWindow junction) Alike := by
  refine (follows_scalars h h' "rect filter").bind ?_
  rintro _ - - - ⟨rfl, -⟩
  exact follows_makeWith (follows_pushOut _ _ _) (forall₂_two h h')
    (.rectangleFilter xWindow yWindow junction)

theorem follows_conditionFilter (h : p.Tied R q) (h' : p'.Tied R q') (inverted : Bool) :
    Follows R n (conditionFilter p p' inverted) (conditionFilter q q' inverted) Alike := by
  rw [conditionFilter, conditionFilter, h.length_eq, h'.length_eq]
  refine Follows.check Iff.rfl fun _ => ?_
  exact follows_makeWith (follows_pushLike h) (forall₂_two h h') (.conditionFilter inverted)

theorem follows_scalerOverflow (h : p.Tied R q) :
    Follows R n (scalerOverflow p) (scalerOverflow q) Alike := by
  rw [scalerOverflow, scalerOverflow, h.length_eq]
  refine (Follows.pushFilled _ _).bind ?_
  rintro R₁ l l' h₁ ⟨hl, -⟩
  refine (Follows.pushSpan _).bind ?_
  rintro R₂ v v' h₂ ⟨hv, -⟩
  refine (Pipe.follows_push _ _ _).bind ?_
  rintro R₃ o o' h₃ ⟨ho, hon⟩
  have hin := ((h.mono h₁).mono h₂).mono h₃
  refine (Follows.values hin.lower).bind ?_
  rintro _ lower _ - ⟨rfl, rfl⟩
  refine (Follows.assign ho.lower hon.1 _).bind ?_
  rintro _ - - - rfl
  exact .pure ⟨forall₂_one hin, forall₂_one ho, .none,
    .scalerOverflow ((hl.mono h₂).mono h₃) (hv.mono h₃)⟩

theorem follows_liftExcept {α : Type} (r : Except Error α) :
    Follows R n (expressionOf.liftExcept r) (expressionOf.liftExcept r)
      fun R' v w => R' = R ∧ v = w := by
  cases r with
  | ok v => exact .pure ⟨rfl, rfl⟩
  | error e => exact .throw

theorem follows_expressionOf {is js : List NamedInput} (h : List.Forall₂ (NamedInput.Tied R) is js)
    (first : Script.Scope → Except ExpressionError Script.Datum)
    (program : Script.Scope → Option Script.Scope) :
    Follows R n (expressionOf is first program) (expressionOf js first program) Alike := by
  have hnames : is.map NamedInput.name = js.map NamedInput.name :=
    List.forall₂_eq_eq_eq ▸ List.rel_map (fun _ _ hij => hij.name) h
  rw [expressionOf, expressionOf, hnames]
  refine (Follows.mapM_look (h.imp fun _ _ hij => follows_describeInput hij)).bind ?_
  rintro _ maps _ - ⟨rfl, rfl⟩
  refine (follows_liftExcept _).bind ?_
  rintro _ ds _ - ⟨rfl, rfl⟩
  refine (Follows.mapM (V := Pipe.Tied) (fun _ _ _ _ hR hpq => hpq.mono hR)
    (fun R d => follows_pushDeclared d) ds).bind ?_
  intro R₁ os os' h₁ ho
  exact .pure ⟨List.rel_map (fun _ _ hij => hij.pipe.mono h₁) h, ho, .none, .expression _⟩

theorem follows_histograms (h : p.Tied R q) (bins : Nat) (axis : Option Axis) :
    Follows R n (histograms p bins axis) (histograms q bins axis) Alike := by
  refine (Follows.values h.lower).bind ?_
  rintro _ lower _ - ⟨rfl, rfl⟩
  refine (Follows.values h.upper).bind ?_
  rintro _ upper _ - ⟨rfl, rfl⟩
  refine (Follows.mapM (V := Histogram.Tied) (fun _ _ _ _ hR hk => hk.mono hR)
    (fun R l => Histogram.follows_push bins _) (lower.zip upper)).bind ?_
  intro R₁ hs ks h₁ hh
  exact .pure ⟨forall₂_one (h.mono h₁), .nil, .none, .histograms hh⟩

/-- An axis over the limits of a single element, unless another one is given. -/
def axisFor (p : Pipe) : Option Axis → Alloc Axis
  | some a => pure a
  | none => do return Axis.ofLimits (← Arena.value p.lower 0) (← Arena.value p.upper 0)

theorem planeHistogram_eq (x y : Pipe) (xBins yBins : Nat) (xAxis yAxis : Option Axis) :
    planeHistogram x y xBins yBins xAxis yAxis = (do
      scalars x y "h2d sink"
      let a ← axisFor x xAxis
      let b ← axisFor y yAxis
      let h ← PlaneHistogram.push xBins yBins a b
      pure (make (.planeHistogram h) [x, y] [])) := by
  rw [planeHistogram]
  cases xAxis <;> cases yAxis <;> rfl

theorem follows_axisFor (h : p.Tied R q) (hq : q.Even) (hone : q.length = 1)
    (axis : Option Axis) :
    Follows R n (axisFor p axis) (axisFor q axis) fun R' v w => R' = R ∧ v = w := by
  cases axis with
  | some a => exact .pure ⟨rfl, rfl⟩
  | none =>
    have hlower : 0 < p.lower.length := by rw [h.lower.length_eq, hq.1, hone]; decide
    have hupper : 0 < p.upper.length := by rw [h.upper.length_eq, hq.2, hone]; decide
    refine (Follows.value h.lower hlower).bind ?_
    rintro _ lower _ - ⟨rfl, rfl⟩
    refine (Follows.value h.upper hupper).bind ?_
    rintro _ upper _ - ⟨rfl, rfl⟩
    exact .pure ⟨rfl, rfl⟩

theorem follows_planeHistogram (h : p.Tied R q) (h' : p'.Tied R q') (hq : q.Even) (hq' : q'.Even)
    (xBins yBins : Nat) (xAxis yAxis : Option Axis) :
    Follows R n (planeHistogram p p' xBins yBins xAxis yAxis)
      (planeHistogram q q' xBins yBins xAxis yAxis) Alike := by
  rw [planeHistogram_eq, planeHistogram_eq]
  refine (follows_scalars h h' "h2d sink").bind ?_
  rintro _ - - - ⟨rfl, hone, hone'⟩
  refine (follows_axisFor h hq hone xAxis).bind ?_
  rintro _ a _ - ⟨rfl, rfl⟩
  refine (follows_axisFor h' hq' hone' yAxis).bind ?_
  rintro _ b _ - ⟨rfl, rfl⟩
  refine (PlaneHistogram.follows_push xBins yBins a b).bind fun R₂ k k' h₂ hk => .pure ?_
  exact ⟨forall₂_two (h.mono h₂) (h'.mono h₂), .nil, .none, .planeHistogram hk⟩

theorem follows_rateMonitor (h : p.Tied R q) (samplers : List Sampler) (mode : RateMode) :
    Follows R n (rateMonitor p samplers mode) (rateMonitor q samplers mode) Alike := by
  rw [rateMonitor, rateMonitor, h.length_eq]
  refine Follows.check Iff.rfl fun _ => ?_
  refine (Follows.pushSpan _).bind ?_
  rintro R₁ c c' h₁ ⟨hc, -⟩
  exact .pure ⟨forall₂_one (h.mono h₁), .nil, .none, .rateMonitor samplers mode hc⟩

theorem follows_exportSink {is js : List Pipe} (h : List.Forall₂ (Pipe.Tied R) is js)
    {c c' : Option Pipe} (hc : Option.Rel (Pipe.Tied R) c c') (path : String)
    (format : ExportFormat) (level : Int) :
    Follows R n (exportSink is c path format level) (exportSink js c' path format level) Alike := by
  have hlengths : is.map Pipe.length = js.map Pipe.length :=
    List.forall₂_eq_eq_eq ▸ List.rel_map (fun _ _ hpq => hpq.length_eq) h
  have hempty : is.isEmpty = js.isEmpty := by
    rw [← List.isEmpty_map (f := Pipe.length), hlengths, List.isEmpty_map]
  have hsparse : (is.any fun p => maxSparse < p.length) = js.any fun p => maxSparse < p.length := by
    have hany := congrArg (List.any · fun n => decide (maxSparse < n)) hlengths
    simpa only [List.any_map, Function.comp_def] using hany
  have hcond : (c.any fun p => decide (p.length = 0)) = c'.any fun p => decide (p.length = 0) := by
    cases hc with
    | none => rfl
    | some hpq => simp [hpq.length_eq]
  have hsome : c.isSome = c'.isSome := by
    cases hc <;> rfl
  have hin : List.Forall₂ (Pipe.Tied R) (is ++ c.toList) (js ++ c'.toList) := by
    refine List.rel_append h ?_
    cases hc with
    | none => exact .nil
    | some hpq => exact .cons hpq .nil
  rw [exportSink, exportSink, hempty, hsparse, hcond, hsome]
  refine Follows.check Iff.rfl fun _ => Follows.check Iff.rfl fun _ => ?_
  refine Follows.check Iff.rfl fun _ => Follows.check Iff.rfl fun _ => .pure ?_
  exact ⟨hin, .nil, .none, .exportSink _ _⟩

theorem follows_intervalCondition (h : p.Tied R q) (intervals : List (Window Value)) :
    Follows R n (intervalCondition p intervals) (intervalCondition q intervals) Alike := by
  rw [intervalCondition, intervalCondition, h.length_eq]
  refine Follows.check Iff.rfl fun _ => .pure ?_
  exact ⟨forall₂_one h, .nil, .none, .intervalCondition intervals fun _ _ => trivial⟩

theorem follows_rectangleCondition (h : p.Tied R q) (h' : p'.Tied R q')
    (xWindow yWindow : Window Value) :
    Follows R n (rectangleCondition p p' xWindow yWindow) (rectangleCondition q q' xWindow yWindow)
      Alike := by
  refine (follows_scalars h h' "rectangle condition").bind ?_
  rintro _ - - - ⟨rfl, -⟩
  exact .pure ⟨forall₂_two h h', .nil, .none, .rectangleCondition xWindow yWindow trivial⟩

theorem follows_polygonCondition (h : p.Tied R q) (h' : p'.Tied R q')
    (polygon : List (Value × Value)) :
    Follows R n (polygonCondition p p' polygon) (polygonCondition q q' polygon) Alike := by
  refine (follows_scalars h h' "polygon condition").bind ?_
  rintro _ - - - ⟨rfl, -⟩
  refine Follows.check Iff.rfl fun _ => .pure ?_
  exact ⟨forall₂_two h h', .nil, .none, .polygonCondition polygon trivial⟩

end Operator

namespace Recipe

/-- The same recipe with inputs that are tied. -/
inductive Tied (R : Ties) : Recipe → Recipe → Prop
  | calibration {p q : Pipe} (h : p.Tied R q) (units) :
    Tied R (.calibration p units) (.calibration q units)
  | keepPrevious {p q : Pipe} (h : p.Tied R q) (keepValid) :
    Tied R (.keepPrevious p keepValid) (.keepPrevious q keepValid)
  | difference {p q p' q' : Pipe} (h : p.Tied R q) (h' : p'.Tied R q') :
    Tied R (.difference p p') (.difference q q')
  | arrayMap {is js} (h : List.Forall₂ (Pipe.Tied R) is js) (mappings) :
    Tied R (.arrayMap is mappings) (.arrayMap js mappings)
  | equation {p q p' q' : Pipe} (h : p.Tied R q) (h' : p'.Tied R q') (e lower upper) :
    Tied R (.equation p p' e lower upper) (.equation q q' e lower upper)
  | aggregate {p q : Pipe} (h : p.Tied R q) (r window) :
    Tied R (.aggregate p r window) (.aggregate q r window)
  | rangeFilter {p q : Pipe} (h : p.Tied R q) (window inverted) :
    Tied R (.rangeFilter p window inverted) (.rangeFilter q window inverted)
  | rectangleFilter {p q p' q' : Pipe} (h : p.Tied R q) (h' : p'.Tied R q')
      (xWindow yWindow junction) :
    Tied R (.rectangleFilter p p' xWindow yWindow junction)
      (.rectangleFilter q q' xWindow yWindow junction)
  | conditionFilter {p q p' q' : Pipe} (h : p.Tied R q) (h' : p'.Tied R q') (inverted) :
    Tied R (.conditionFilter p p' inverted) (.conditionFilter q q' inverted)
  | scalerOverflow {p q : Pipe} (h : p.Tied R q) : Tied R (.scalerOverflow p) (.scalerOverflow q)
  | expression {is js} (h : List.Forall₂ (Operator.NamedInput.Tied R) is js) (first program) :
    Tied R (.expression is first program) (.expression js first program)
  | histograms {p q : Pipe} (h : p.Tied R q) (bins axis) :
    Tied R (.histograms p bins axis) (.histograms q bins axis)
  | planeHistogram {p q p' q' : Pipe} (h : p.Tied R q) (h' : p'.Tied R q')
      (xBins yBins xAxis yAxis) :
    Tied R (.planeHistogram p p' xBins yBins xAxis yAxis)
      (.planeHistogram q q' xBins yBins xAxis yAxis)
  | rateMonitor {p q : Pipe} (h : p.Tied R q) (samplers mode) :
    Tied R (.rateMonitor p samplers mode) (.rateMonitor q samplers mode)
  | exportSink {is js} (h : List.Forall₂ (Pipe.Tied R) is js) {c c'}
      (hc : Option.Rel (Pipe.Tied R) c c') (path format level) :
    Tied R (.exportSink is c path format level) (.exportSink js c' path format level)
  | intervalCondition {p q : Pipe} (h : p.Tied R q) (intervals) :
    Tied R (.intervalCondition p intervals) (.intervalCondition q intervals)
  | rectangleCondition {p q p' q' : Pipe} (h : p.Tied R q) (h' : p'.Tied R q') (xWindow yWindow) :
    Tied R (.rectangleCondition p p' xWindow yWindow) (.rectangleCondition q q' xWindow yWindow)
  | polygonCondition {p q p' q' : Pipe} (h : p.Tied R q) (h' : p'.Tied R q') (polygon) :
    Tied R (.polygonCondition p p' polygon) (.polygonCondition q q' polygon)

/-- Tied recipes make tied operators. -/
theorem Tied.follows {r r' : Recipe} (h : r.Tied R r') (heven : ∀ v ∈ r'.inputs, v.Even) :
    Follows R n r.make r'.make Operator.Alike := by
  cases h with
  | calibration h units => exact Operator.follows_calibrationEach h units
  | keepPrevious h keepValid => exact Operator.follows_keepPrevious h keepValid
  | difference h h' => exact Operator.follows_difference h h'
  | arrayMap h mappings => exact Operator.follows_arrayMap h mappings
  | equation h h' e lower upper => exact Operator.follows_equation h h' e lower upper
  | aggregate h r window => exact Operator.follows_aggregate h r window
  | rangeFilter h window inverted => exact Operator.follows_rangeFilter h window inverted
  | rectangleFilter h h' xWindow yWindow junction =>
    exact Operator.follows_rectangleFilter h h' xWindow yWindow junction
  | conditionFilter h h' inverted => exact Operator.follows_conditionFilter h h' inverted
  | scalerOverflow h => exact Operator.follows_scalerOverflow h
  | expression h first program => exact Operator.follows_expressionOf h first program
  | histograms h bins axis => exact Operator.follows_histograms h bins axis
  | planeHistogram h h' xBins yBins xAxis yAxis =>
    obtain ⟨hq, hq'⟩ := List.forall_mem_cons.1 heven
    exact Operator.follows_planeHistogram h h' hq (hq' _ List.mem_cons_self) xBins yBins xAxis yAxis
  | rateMonitor h samplers mode => exact Operator.follows_rateMonitor h samplers mode
  | exportSink h hc path format level => exact Operator.follows_exportSink h hc path format level
  | intervalCondition h intervals => exact Operator.follows_intervalCondition h intervals
  | rectangleCondition h h' xWindow yWindow =>
    exact Operator.follows_rectangleCondition h h' xWindow yWindow
  | polygonCondition h h' polygon => exact Operator.follows_polygonCondition h h' polygon

theorem Tied.refl {r : Recipe} (h : ∀ v ∈ r.inputs, v.Tied R v) : r.Tied R r := by
  have hall : ∀ is : List Pipe, (∀ v ∈ is, v.Tied R v) → List.Forall₂ (Pipe.Tied R) is is :=
    fun is => List.forall₂_same.2
  cases r with
  | calibration input units => exact .calibration (h _ List.mem_cons_self) units
  | keepPrevious input keepValid => exact .keepPrevious (h _ List.mem_cons_self) keepValid
  | difference a b => exact .difference (h _ (by simp [inputs])) (h _ (by simp [inputs]))
  | arrayMap is mappings => exact .arrayMap (hall is h) mappings
  | equation a b e lower upper =>
    exact .equation (h _ (by simp [inputs])) (h _ (by simp [inputs])) e lower upper
  | aggregate input r window => exact .aggregate (h _ List.mem_cons_self) r window
  | rangeFilter input window inverted => exact .rangeFilter (h _ List.mem_cons_self) window inverted
  | rectangleFilter x y xWindow yWindow junction =>
    exact .rectangleFilter (h _ (by simp [inputs])) (h _ (by simp [inputs])) xWindow yWindow
      junction
  | conditionFilter data condition inverted =>
    exact .conditionFilter (h _ (by simp [inputs])) (h _ (by simp [inputs])) inverted
  | scalerOverflow input => exact .scalerOverflow (h _ List.mem_cons_self)
  | expression is first program =>
    exact .expression (List.forall₂_same.2 fun i hi =>
      ⟨h _ (List.mem_map_of_mem hi), rfl, rfl⟩) first program
  | histograms input bins axis => exact .histograms (h _ List.mem_cons_self) bins axis
  | planeHistogram x y xBins yBins xAxis yAxis =>
    exact .planeHistogram (h _ (by simp [inputs])) (h _ (by simp [inputs])) xBins yBins xAxis yAxis
  | rateMonitor input samplers mode => exact .rateMonitor (h _ List.mem_cons_self) samplers mode
  | exportSink is condition path format level =>
    obtain ⟨his, hc⟩ := List.forall_mem_append.1 h
    refine .exportSink (hall is his) ?_ path format level
    cases condition with
    | none => exact .none
    | some c => exact .some (hc c List.mem_cons_self)
  | intervalCondition input intervals =>
    exact .intervalCondition (h _ List.mem_cons_self) intervals
  | rectangleCondition x y xWindow yWindow =>
    exact .rectangleCondition (h _ (by simp [inputs])) (h _ (by simp [inputs])) xWindow yWindow
  | polygonCondition x y polygon =>
    exact .polygonCondition (h _ (by simp [inputs])) (h _ (by simp [inputs])) polygon

/-- A maker changes nothing of what was taken before. -/
theorem make_keeps {r : Recipe} {a a' : Arena} {op : Operator} (ha : a.Roomy)
    (hin : ∀ v ∈ r.inputs, v.Even ∧ ∀ t ∈ v.spans, t.stop ≤ a.edge)
    (h : r.make a = (.ok op, a')) :
    a.edge ≤ a'.edge ∧ a.store.AgreeOn (· < a.edge) a'.store := by
  have hself : r.Tied (Ties.below a.edge) r := .refl fun v hv => Pipe.tied_below (hin v hv).2
  have hfollows := hself.follows (n := a.edge) fun v hv => (hin v hv).1
  rcases hfollows a a op a' (Arena.tied_below ha) (Nat.le_refl _) h with
    ⟨v, a'', R', hmake, hr, -⟩ | ⟨e, a'', hmake, -⟩
  · exact ⟨hr.grown.right, hr.kept⟩
  · rw [h] at hmake
    cases hmake

end Recipe

end Readout
