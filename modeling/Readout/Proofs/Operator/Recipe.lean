import Readout.Operator.Make
import Readout.Proofs.Operator.Layout

/-!
# What makers establish

A recipe names a maker with its arguments. Whatever a recipe makes reads the inputs of the recipe,
is not gated, has outputs of even length, keeps the sizes that its step relies on, and owns spans
that nothing else owns.
-/
namespace Readout

open Script (Scope Datum)

inductive Recipe
  | calibration (input : Pipe) (units : List (Value × Value))
  | keepPrevious (input : Pipe) (keepValid : Bool)
  | difference (a b : Pipe)
  | arrayMap (inputs : List Pipe) (mappings : List Mapping)
  | equation (a b : Pipe) (e : Equation) (lower upper : Value)
  | aggregate (input : Pipe) (r : Reduction) (window : Window Value)
  | rangeFilter (input : Pipe) (window : Window Value) (inverted : Bool)
  | rectangleFilter (x y : Pipe) (xWindow yWindow : Window Value) (junction : Junction)
  | conditionFilter (data condition : Pipe) (inverted : Bool)
  | scalerOverflow (input : Pipe)
  | expression (inputs : List Operator.NamedInput)
      (first : Scope → Except ExpressionError Datum) (program : Scope → Option Scope)
  | histograms (input : Pipe) (bins : Nat) (axis : Option Axis)
  | planeHistogram (x y : Pipe) (xBins yBins : Nat) (xAxis yAxis : Option Axis)
  | rateMonitor (input : Pipe) (samplers : List Sampler) (mode : RateMode)
  | exportSink (inputs : List Pipe) (condition : Option Pipe) (path : String)
      (format : ExportFormat) (level : Int)
  | intervalCondition (input : Pipe) (intervals : List (Window Value))
  | rectangleCondition (x y : Pipe) (xWindow yWindow : Window Value)
  | polygonCondition (x y : Pipe) (polygon : List (Value × Value))

namespace Recipe

def inputs : Recipe → List Pipe
  | calibration input _ | keepPrevious input _ | aggregate input .. | rangeFilter input ..
  | scalerOverflow input | histograms input .. | rateMonitor input .. | intervalCondition input _ =>
    [input]
  | difference a b | equation a b .. => [a, b]
  | rectangleFilter x y .. | planeHistogram x y .. | rectangleCondition x y ..
  | polygonCondition x y _ => [x, y]
  | conditionFilter data condition _ => [data, condition]
  | arrayMap inputs _ => inputs
  | expression inputs .. => inputs.map Operator.NamedInput.pipe
  | exportSink inputs condition .. => inputs ++ condition.toList

def planeBins? : Recipe → Option Nat
  | planeHistogram _ _ xBins yBins _ _ => some (xBins * yBins)
  | _ => none

def make : Recipe → Alloc Operator
  | calibration input units => Operator.calibrationEach input units
  | keepPrevious input keepValid => Operator.keepPrevious input keepValid
  | difference a b => Operator.difference a b
  | arrayMap inputs mappings => Operator.arrayMap inputs mappings
  | equation a b e lower upper => Operator.equation a b e lower upper
  | aggregate input r window => Operator.aggregate input r window
  | rangeFilter input window inverted => Operator.rangeFilter input window inverted
  | rectangleFilter x y xWindow yWindow junction =>
    Operator.rectangleFilter x y xWindow yWindow junction
  | conditionFilter data condition inverted => Operator.conditionFilter data condition inverted
  | scalerOverflow input => Operator.scalerOverflow input
  | expression inputs first program => Operator.expressionOf inputs first program
  | histograms input bins axis => Operator.histograms input bins axis
  | planeHistogram x y xBins yBins xAxis yAxis =>
    Operator.planeHistogram x y xBins yBins xAxis yAxis
  | rateMonitor input samplers mode => Operator.rateMonitor input samplers mode
  | exportSink inputs condition path format level =>
    Operator.exportSink inputs condition path format level
  | intervalCondition input intervals => Operator.intervalCondition input intervals
  | rectangleCondition x y xWindow yWindow => Operator.rectangleCondition x y xWindow yWindow
  | polygonCondition x y polygon => Operator.polygonCondition x y polygon

end Recipe

namespace Operator

/-- What holds of an operator that was made from given inputs. -/
structure MadeFrom (inputs : List Pipe) (planeBins : Option Nat) (op : Operator) : Prop where
  inputs_eq : op.inputs = inputs
  gate_eq : op.gate = none
  planeBins_eq : op.kind.planeBins? = planeBins
  opened_eq : op.kind.opened = false
  outputs_even : ∀ p ∈ op.outputs, p.Even
  shaped : (∀ p ∈ inputs, p.Even) → op.Shaped

section Parts

variable {base : List Span}

theorem takes_sameSize (a b : Pipe) (what : String) :
    Takes base (sameSize a b what) (fun _ => base) fun _ => a.length = b.length := by
  rw [sameSize]
  split
  · exact .throw
  · next h => exact .pure (.refl base) (Decidable.not_not.1 h)

theorem takes_scalars (x y : Pipe) (what : String) :
    Takes base (scalars x y what) (fun _ => base) fun _ => x.length = 1 ∧ y.length = 1 := by
  rw [scalars]
  split
  · exact .throw
  · next h => exact .pure (.refl base) (by omega)

theorem takes_declareLimits (p : Pipe) (lower upper : List Value) :
    Takes base (declareLimits p lower upper) (fun _ => base) fun _ => True :=
  (Takes.assign p.lower lower).bind fun _ _ => Takes.assign p.upper upper

theorem takes_pushLike (p : Pipe) :
    Takes [] (pushLike p) Pipe.spans fun o => o.Even ∧ o.length = p.length := by
  refine (Pipe.takes_push p.length Value.zero Value.zero).bind fun o ho => ?_
  exact (Pipe.takes_copyLimits p o).bind fun _ _ => .pure (.refl _) ho

theorem takes_pushDeclared (d : Declaration) :
    Takes [] (pushDeclared d) Pipe.spans fun o => o.Even ∧ o.length = d.size := by
  refine (Pipe.takes_push d.size Value.zero Value.zero).bind fun o ho => ?_
  exact (takes_declareLimits o d.lower d.upper).bind fun _ _ => .pure (.refl _) ho

theorem takes_valuesEach (f : Pipe → Span) (ps : List Pipe) :
    Takes base (ps.mapM fun p => Arena.values (f p)) (fun _ => base) fun _ => True :=
  Takes.mapM_look (fun p => (Takes.values (f p)).weaken fun _ _ => trivial) ps

theorem takes_describeInput (i : NamedInput) :
    Takes base (describeInput i) (fun _ => base) fun _ => True := by
  refine (Takes.values i.pipe.lower).bind fun _ _ => ?_
  exact (Takes.values i.pipe.upper).bind fun _ _ => .pure (.refl base) trivial

end Parts

end Operator

theorem Histogram.takes_push (bins : Nat) (axis : Axis) :
    Takes [] (push bins axis) (fun h => [h.data]) fun h => 0 < h.bins ∧ h.axis = axis := by
  rw [push]
  apply Takes.check
  intro h
  refine (Arena.takes_pushSpan bins).bind fun data hd => .pure (.refl _) ⟨?_, rfl⟩
  rw [Histogram.bins, hd]
  omega

theorem PlaneHistogram.takes_push (xBins yBins : Nat) (x y : Axis) :
    Takes [] (push xBins yBins x y) (fun h => [h.data]) fun h =>
      (h.xBins = xBins ∧ h.yBins = yBins) ∧ 0 < xBins ∧ 0 < yBins ∧
        h.data.length = xBins * yBins % Word.size 64 := by
  rw [push]
  apply Takes.check
  intro h
  refine (Arena.takes_pushSpan _).bind fun data hd => .pure (.refl _) ⟨⟨rfl, rfl⟩, ?_, ?_, hd⟩
  · omega
  · omega

namespace Operator

theorem owned_make (kind : Kind) (inputs outputs : List Pipe) :
    (make kind inputs outputs).owned =
      outputs.flatMap Pipe.spans ++ kind.memory ++ kind.bins := rfl

section OneOutput

variable {x : Alloc Pipe} {n : Nat} {base : List Span}

theorem takes_makeWith (kind : Kind) (inputs : List Pipe) (hb : kind.bins = [])
    (hn : kind.planeBins? = none) (hk : kind.opened = false) (hm : kind.memory = base)
    (hx : Takes [] x Pipe.spans fun o => o.Even ∧ o.length = n)
    (hs : ∀ o : Pipe, o.length = n → (∀ p ∈ inputs, p.Even) → kind.Shaped inputs [o]) :
    Takes base (x >>= fun o => pure (make kind inputs [o])) owned (MadeFrom inputs none) := by
  refine (hx.frame base).bind fun o ho => .pure ?_ ⟨rfl, rfl, hn, hk, ?_, fun hi => hs o ho.2 hi⟩
  · rw [owned_make, hb, hm]
    simp
  · intro p hp
    rw [List.mem_singleton.1 hp]
    exact ho.1

end OneOutput

theorem takes_calibrationEach (input : Pipe) (units : List (Value × Value)) :
    Takes [] (calibrationEach input units) owned (MadeFrom [input] none) := by
  rw [calibrationEach]
  apply Takes.check
  intro _
  refine (Pipe.takes_push input.length Value.zero Value.zero).bind fun out ho => ?_
  refine ((Arena.takes_pushSpan input.length).frame _).bind fun factors hf => ?_
  refine (Takes.values input.lower).bind fun lower _ => ?_
  refine (Takes.values input.upper).bind fun upper _ => ?_
  refine (takes_declareLimits out _ _).bind fun _ _ => ?_
  refine (Takes.assign factors _).bind fun _ _ => .pure ?_ ⟨rfl, rfl, rfl, rfl, ?_, fun _ => ?_⟩
  · rw [owned_make]
    simpa [Kind.memory, Kind.bins] using (List.perm_append_singleton factors out.spans).symm
  · intro p hp
    rw [List.mem_singleton.1 hp]
    exact ho.1
  · exact ⟨input, out, rfl, rfl, hf, ho.2⟩

theorem takes_keepPrevious (input : Pipe) (keepValid : Bool) :
    Takes [] (keepPrevious input keepValid) owned (MadeFrom [input] none) := by
  refine (Arena.takes_pushFilled input.length Value.invalid).bind fun previous hp => ?_
  exact takes_makeWith (.keepPrevious previous keepValid) [input] rfl rfl rfl rfl (takes_pushLike input)
    fun o ho _ => ⟨input, o, rfl, rfl, hp, ho⟩

theorem takes_difference (a b : Pipe) :
    Takes [] (difference a b) owned (MadeFrom [a, b] none) := by
  refine (takes_sameSize a b "difference").bind fun _ hab => ?_
  refine (Pipe.takes_push a.length Value.zero Value.zero).bind fun out ho => ?_
  refine (Takes.values a.lower).bind fun _ _ => (Takes.values a.upper).bind fun _ _ => ?_
  refine (Takes.values b.lower).bind fun _ _ => (Takes.values b.upper).bind fun _ _ => ?_
  refine (takes_declareLimits out _ _).bind fun _ _ => .pure ?_ ⟨rfl, rfl, rfl, rfl, ?_, fun _ => ?_⟩
  · simp [owned_make, Kind.memory, Kind.bins]
  · intro p hp
    rw [List.mem_singleton.1 hp]
    exact ho.1
  · exact ⟨a, b, out, rfl, rfl, hab, ho.2⟩

theorem takes_arrayMap (inputs : List Pipe) (mappings : List Mapping) :
    Takes [] (arrayMap inputs mappings) owned (MadeFrom inputs none) := by
  rw [arrayMap]
  refine (Pipe.takes_push mappings.length Value.zero Value.zero).bind fun out ho => ?_
  refine (takes_valuesEach Pipe.lower inputs).bind fun lower _ => ?_
  refine (takes_valuesEach Pipe.upper inputs).bind fun upper _ => ?_
  refine (takes_declareLimits out _ _).bind fun _ _ => .pure ?_ ⟨rfl, rfl, rfl, rfl, ?_, fun _ => ?_⟩
  · simp [owned_make, Kind.memory, Kind.bins]
  · intro p hp
    rw [List.mem_singleton.1 hp]
    exact ho.1
  · exact ⟨out, rfl, ho.2⟩

theorem takes_equation (a b : Pipe) (e : Equation) (lower upper : Value) :
    Takes [] (equation a b e lower upper) owned (MadeFrom [a, b] none) := by
  refine (takes_sameSize a b "binary equation").bind fun _ hab => ?_
  exact takes_makeWith (.equation e) [a, b] rfl rfl rfl rfl (Pipe.takes_push a.length lower upper)
    fun o ho _ => ⟨a, b, o, rfl, rfl, hab, ho⟩

theorem takes_aggregate (input : Pipe) (r : Reduction) (window : Window Value) :
    Takes [] (aggregate input r window) owned (MadeFrom [input] none) := by
  refine (Takes.values input.lower).bind fun _ _ => (Takes.values input.upper).bind fun _ _ => ?_
  exact takes_makeWith (.aggregate r window) [input] rfl rfl rfl rfl (Pipe.takes_push 1 _ _)
    fun o ho _ => ⟨input, o, rfl, rfl, ho⟩

theorem takes_rangeFilter (input : Pipe) (window : Window Value) (inverted : Bool) :
    Takes [] (rangeFilter input window inverted) owned (MadeFrom [input] none) :=
  takes_makeWith (.rangeFilter window inverted) [input] rfl rfl rfl rfl (takes_pushLike input)
    fun o ho _ => ⟨input, o, rfl, rfl, ho⟩

theorem takes_rectangleFilter (x y : Pipe) (xWindow yWindow : Window Value)
    (junction : Junction) :
    Takes [] (rectangleFilter x y xWindow yWindow junction) owned (MadeFrom [x, y] none) := by
  refine (takes_scalars x y "rect filter").bind fun _ hxy => ?_
  exact takes_makeWith (.rectangleFilter xWindow yWindow junction) [x, y] rfl rfl rfl rfl
    (Pipe.takes_push 1 Value.zero Value.two) fun o ho _ => ⟨x, y, o, rfl, rfl, hxy.1, hxy.2, ho⟩

theorem takes_conditionFilter (data condition : Pipe) (inverted : Bool) :
    Takes [] (conditionFilter data condition inverted) owned (MadeFrom [data, condition] none) := by
  rw [conditionFilter]
  apply Takes.check
  intro hc
  exact takes_makeWith (.conditionFilter inverted) [data, condition] rfl rfl rfl rfl
    (takes_pushLike data) fun o ho _ => ⟨data, condition, o, rfl, rfl, by omega, ho⟩

theorem takes_scalerOverflow (input : Pipe) :
    Takes [] (scalerOverflow input) owned (MadeFrom [input] none) := by
  refine (Arena.takes_pushFilled input.length Value.invalid).bind fun last hl => ?_
  refine ((Arena.takes_pushSpan input.length).frame _).bind fun overflows hv => ?_
  refine ((Pipe.takes_push input.length Value.zero Value.largest).frame _).bind fun out ho => ?_
  refine (Takes.values input.lower).bind fun _ _ => (Takes.assign out.lower _).bind fun _ _ => ?_
  refine .pure ?_ ⟨rfl, rfl, rfl, rfl, ?_, fun _ => ?_⟩
  · simpa [owned_make, Kind.memory, Kind.bins, Pipe.spans] using .swap last overflows []
  · intro p hp
    rw [List.mem_singleton.1 hp]
    exact ho.1
  · exact ⟨input, out, rfl, rfl, hl, hv, ho.2⟩

theorem takes_liftExcept {α : Type} {base : List Span} (r : Except Error α) :
    Takes base (expressionOf.liftExcept r) (fun _ => base) fun _ => True := by
  cases r with
  | ok a => exact .pure (.refl base) trivial
  | error e => exact .throw

theorem takes_expressionOf (inputs : List NamedInput)
    (first : Scope → Except ExpressionError Datum) (program : Scope → Option Scope) :
    Takes [] (expressionOf inputs first program) owned
      (MadeFrom (inputs.map NamedInput.pipe) none) := by
  rw [expressionOf]
  refine (Takes.mapM_look takes_describeInput inputs).bind fun maps _ => ?_
  refine (takes_liftExcept _).bind fun ds _ => ?_
  refine (Takes.mapM takes_pushDeclared ds).bind fun outputs ho => .pure ?_ ⟨rfl, rfl, rfl, rfl, ?_, ?_⟩
  · simp [owned_make, Kind.memory, Kind.bins]
  · intro p hp
    obtain ⟨i, hi, rfl⟩ := List.getElem_of_mem hp
    exact (ho.get (by rw [ho.length_eq]; exact hi) hi).1
  · intro _
    change outputs.map Pipe.length = ds.map Declaration.size
    refine List.ext_getElem (by simpa using ho.length_eq.symm) fun i hi hj => ?_
    simp only [List.length_map] at hi hj
    simpa using (ho.get hj hi).2

theorem takes_histograms (input : Pipe) (bins : Nat) (axis : Option Axis) :
    Takes [] (histograms input bins axis) owned (MadeFrom [input] none) := by
  rw [histograms]
  refine (Takes.values input.lower).bind fun lower hl => ?_
  refine (Takes.values input.upper).bind fun upper hu => ?_
  refine (Takes.mapM (fun l => Histogram.takes_push bins _) (lower.zip upper)).bind fun hs hh => ?_
  refine .pure ?_ ⟨rfl, rfl, rfl, rfl, by simp [make], fun hi => ⟨input, rfl, rfl, ?_, fun h hm => ?_⟩⟩
  · rw [owned_make]
    simp [Kind.memory, Kind.bins, List.map_eq_flatMap]
  · have he := hi input (List.mem_singleton_self input)
    rw [← hh.length_eq, List.length_zip, hl, hu, he.1, he.2, Nat.min_self]
  · obtain ⟨i, hi, rfl⟩ := List.getElem_of_mem hm
    exact (hh.get (by rw [hh.length_eq]; exact hi) hi).1

theorem takes_planeHistogram (x y : Pipe) (xBins yBins : Nat) (xAxis yAxis : Option Axis) :
    Takes [] (planeHistogram x y xBins yBins xAxis yAxis) owned
      (MadeFrom [x, y] (some (xBins * yBins))) := by
  rw [planeHistogram]
  refine (takes_scalars x y "h2d sink").bind fun _ hxy => ?_
  have hmake : ∀ xAxis yAxis : Axis,
      Takes [] (PlaneHistogram.push xBins yBins xAxis yAxis >>= fun h =>
        pure (make (.planeHistogram h) [x, y] [])) owned
        (MadeFrom [x, y] (some (xBins * yBins))) := by
    intro xAxis yAxis
    refine (PlaneHistogram.takes_push xBins yBins xAxis yAxis).bind fun h hh => ?_
    obtain ⟨⟨rfl, rfl⟩, hx, hy, hl⟩ := hh
    exact .pure (.refl _) ⟨rfl, rfl, rfl, rfl, by simp [make], fun _ =>
      ⟨x, y, rfl, rfl, hxy.1, hxy.2, hx, hy, hl⟩⟩
  have haxis : ∀ p : Pipe, Takes [] (do
      let lower ← Arena.value p.lower 0
      let upper ← Arena.value p.upper 0
      pure (Axis.ofLimits lower upper)) (fun _ => []) fun _ => True := by
    intro p
    refine (Takes.value p.lower 0).bind fun _ _ => ?_
    exact (Takes.value p.upper 0).bind fun _ _ => .pure (.refl []) trivial
  cases xAxis with
  | none =>
    refine (haxis x).bind fun a _ => ?_
    cases yAxis with
    | none => exact (haxis y).bind fun b _ => hmake a b
    | some b =>
      dsimp only
      rw [pure_bind]
      exact hmake a b
  | some a =>
    dsimp only
    rw [pure_bind]
    cases yAxis with
    | none => exact (haxis y).bind fun b _ => hmake a b
    | some b =>
      dsimp only
      rw [pure_bind]
      exact hmake a b

theorem takes_rateMonitor (input : Pipe) (samplers : List Sampler) (mode : RateMode) :
    Takes [] (rateMonitor input samplers mode) owned (MadeFrom [input] none) := by
  rw [rateMonitor]
  apply Takes.check
  intro hs
  refine (Arena.takes_pushSpan input.length).bind fun counts hc =>
    .pure (.refl _) ⟨rfl, rfl, rfl, rfl, by simp [make], fun _ => ?_⟩
  exact ⟨input, rfl, rfl, Decidable.not_not.1 hs, hc⟩

theorem takes_exportSink (inputs : List Pipe) (condition : Option Pipe) (path : String)
    (format : ExportFormat) (level : Int) :
    Takes [] (exportSink inputs condition path format level) owned
      (MadeFrom (inputs ++ condition.toList) none) := by
  rw [exportSink]
  apply Takes.check
  intro hi
  apply Takes.check
  intro _
  apply Takes.check
  intro _
  apply Takes.check
  intro hc
  refine .pure (.refl _) ⟨rfl, rfl, rfl, rfl, by simp [make], fun _ => ⟨?_, rfl, fun hs p hp hz => hc ?_⟩⟩
  · intro hn
    exact hi (List.isEmpty_iff.2 (List.append_eq_nil_iff.1 hn).1)
  · cases condition with
    | none => cases hs
    | some c =>
      obtain rfl : c = p := by simpa [make] using hp
      simpa using hz

theorem takes_intervalCondition (input : Pipe) (intervals : List (Window Value)) :
    Takes [] (intervalCondition input intervals) owned (MadeFrom [input] none) := by
  rw [intervalCondition]
  apply Takes.check
  intro hi
  refine .pure (.refl _) ⟨rfl, rfl, rfl, rfl, by simp [make], fun _ => ?_⟩
  exact ⟨input, rfl, rfl, Decidable.not_not.1 hi⟩

theorem takes_rectangleCondition (x y : Pipe) (xWindow yWindow : Window Value) :
    Takes [] (rectangleCondition x y xWindow yWindow) owned (MadeFrom [x, y] none) := by
  refine (takes_scalars x y "rectangle condition").bind fun _ hxy => ?_
  exact .pure (.refl _) ⟨rfl, rfl, rfl, rfl, by simp [make], fun _ => ⟨x, y, rfl, rfl, hxy.1, hxy.2⟩⟩

theorem takes_polygonCondition (x y : Pipe) (polygon : List (Value × Value)) :
    Takes [] (polygonCondition x y polygon) owned (MadeFrom [x, y] none) := by
  refine (takes_scalars x y "polygon condition").bind fun _ hxy => ?_
  apply Takes.check
  intro hp
  refine .pure (.refl _) ⟨rfl, rfl, rfl, rfl, by simp [make], fun _ => ?_⟩
  exact ⟨x, y, rfl, rfl, hxy.1, hxy.2, by omega⟩

end Operator

/-- A recipe takes what its operator owns, and nothing else. -/
theorem Recipe.takes_make (r : Recipe) :
    Takes [] r.make Operator.owned (Operator.MadeFrom r.inputs r.planeBins?) := by
  cases r with
  | calibration input units => exact Operator.takes_calibrationEach input units
  | keepPrevious input keepValid => exact Operator.takes_keepPrevious input keepValid
  | difference a b => exact Operator.takes_difference a b
  | arrayMap inputs mappings => exact Operator.takes_arrayMap inputs mappings
  | equation a b e lower upper => exact Operator.takes_equation a b e lower upper
  | aggregate input r window => exact Operator.takes_aggregate input r window
  | rangeFilter input window inverted => exact Operator.takes_rangeFilter input window inverted
  | rectangleFilter x y xWindow yWindow junction =>
    exact Operator.takes_rectangleFilter x y xWindow yWindow junction
  | conditionFilter data condition inverted =>
    exact Operator.takes_conditionFilter data condition inverted
  | scalerOverflow input => exact Operator.takes_scalerOverflow input
  | expression inputs first program => exact Operator.takes_expressionOf inputs first program
  | histograms input bins axis => exact Operator.takes_histograms input bins axis
  | planeHistogram x y xBins yBins xAxis yAxis =>
    exact Operator.takes_planeHistogram x y xBins yBins xAxis yAxis
  | rateMonitor input samplers mode => exact Operator.takes_rateMonitor input samplers mode
  | exportSink inputs condition path format level =>
    exact Operator.takes_exportSink inputs condition path format level
  | intervalCondition input intervals => exact Operator.takes_intervalCondition input intervals
  | rectangleCondition x y xWindow yWindow =>
    exact Operator.takes_rectangleCondition x y xWindow yWindow
  | polygonCondition x y polygon => exact Operator.takes_polygonCondition x y polygon

end Readout
