import Readout.Operator.Basic

/-!
# Making operators

Each maker checks its inputs and takes from the arena what the operator writes or remembers. It
declares the limits of the outputs from those of the inputs.
-/
namespace Readout.Operator

def sameSize (a b : Pipe) (what : String) : Alloc Unit := do
  if a.length ≠ b.length then throw (.build (.sizesDiffer what a.length b.length))

def scalars (x y : Pipe) (what : String) : Alloc Unit := do
  if x.length ≠ 1 ∨ y.length ≠ 1 then throw (.build (.notScalar what))

def make (kind : Kind) (inputs outputs : List Pipe) : Operator := ⟨inputs, outputs, none, kind⟩

def declareLimits (p : Pipe) (lower upper : List Value) : Alloc Unit := do
  Arena.assign p.lower lower
  Arena.assign p.upper upper

def pushLike (p : Pipe) : Alloc Pipe := do
  let out ← Pipe.push p.length Value.zero Value.zero
  Pipe.copyLimits p out
  return out

section Scalars

variable {α : Type} [Scalar α]

/-- Scale from the declared interval of an element to its units. -/
def calibrationFactor (unitMin unitMax lower upper : α) : α := (unitMax - unitMin) / (upper - lower)

/-- Limits of a difference, from the limits of both operands. -/
def differenceLimits (a b : α × α) : α × α := (a.1 - b.2, a.2 - b.1)

end Scalars

def calibrationEach (input : Pipe) (units : List (Value × Value)) : Alloc Operator := do
  if units.length ≠ input.length then
    throw (.build (.unitRanges units.length input.length))
  let out ← Pipe.push input.length Value.zero Value.zero
  let factors ← Arena.pushSpan input.length
  let lower ← Arena.values input.lower
  let upper ← Arena.values input.upper
  declareLimits out (units.map Prod.fst) (units.map Prod.snd)
  Arena.assign factors
    ((units.zip (lower.zip upper)).map fun (u, l) => calibrationFactor u.1 u.2 l.1 l.2)
  return make (.calibration factors) [input] [out]

def calibration (input : Pipe) (unitMin unitMax : Value) : Alloc Operator :=
  calibrationEach input (List.replicate input.length (unitMin, unitMax))

def keepPrevious (input : Pipe) (keepValid : Bool) : Alloc Operator := do
  let previous ← Arena.pushFilled input.length Value.invalid
  return make (.keepPrevious previous keepValid) [input] [← pushLike input]

def difference (a b : Pipe) : Alloc Operator := do
  sameSize a b "difference"
  let out ← Pipe.push a.length Value.zero Value.zero
  let limits := List.zipWith differenceLimits
    ((← Arena.values a.lower).zip (← Arena.values a.upper))
    ((← Arena.values b.lower).zip (← Arena.values b.upper))
  declareLimits out (limits.map Prod.fst) (limits.map Prod.snd)
  return make .difference [a, b] [out]

/-- The element that a mapping takes from the given lists. -/
def mapped? (data : List (List Value)) (m : Mapping) : Option Value :=
  (data[m.input]?).bind fun vs => vs[m.element]?

def arrayMap (inputs : List Pipe) (mappings : List Mapping) : Alloc Operator := do
  let out ← Pipe.push mappings.length Value.zero Value.zero
  let lower ← inputs.mapM fun p => Arena.values p.lower
  let upper ← inputs.mapM fun p => Arena.values p.upper
  declareLimits out (mappings.map fun m => (mapped? lower m).getD Value.zero)
    (mappings.map fun m => (mapped? upper m).getD Value.zero)
  return make (.arrayMap mappings) inputs [out]

def equation (a b : Pipe) (e : Equation) (lower upper : Value) : Alloc Operator := do
  sameSize a b "binary equation"
  return make (.equation e) [a, b] [← Pipe.push a.length lower upper]

def aggregate (input : Pipe) (r : Reduction) (window : Window Value) : Alloc Operator := do
  let lower := Reduction.leastOf Value.infinity (← Arena.values input.lower)
  let upper := Reduction.greatestOf Value.negInfinity (← Arena.values input.upper)
  let limits := r.limits input.length lower upper
  return make (.aggregate r window) [input] [← Pipe.push 1 limits.1 limits.2]

def rangeFilter (input : Pipe) (window : Window Value) (inverted : Bool) : Alloc Operator := do
  return make (.rangeFilter window inverted) [input] [← pushLike input]

def rectangleFilter (x y : Pipe) (xWindow yWindow : Window Value) (junction : Junction) :
    Alloc Operator := do
  scalars x y "rect filter"
  return make (.rectangleFilter xWindow yWindow junction) [x, y]
    [← Pipe.push 1 Value.zero Value.two]

/-- The condition is one element for all of the data, or one for each. -/
def conditionFilter (data condition : Pipe) (inverted : Bool) : Alloc Operator := do
  if condition.length ≠ 1 ∧ condition.length ≠ data.length then
    throw (.build (.conditionSize condition.length data.length))
  return make (.conditionFilter inverted) [data, condition] [← pushLike data]

def scalerOverflow (input : Pipe) : Alloc Operator := do
  let last ← Arena.pushFilled input.length Value.invalid
  let overflows ← Arena.pushSpan input.length
  let out ← Pipe.push input.length Value.zero Value.largest
  Arena.assign out.lower (← Arena.values input.lower)
  return make (.scalerOverflow last overflows) [input] [out]

structure NamedInput where
  pipe : Pipe
  name : String
  unit : String

def describeInput (i : NamedInput) : Alloc Script.Datum := do
  return Expression.describe i.unit (← Arena.values i.pipe.lower) (← Arena.values i.pipe.upper)

def pushDeclared (d : Declaration) : Alloc Pipe := do
  let out ← Pipe.push d.size Value.zero Value.zero
  declareLimits out d.lower d.upper
  return out

/-- The outputs that a program declares, given the maps of its inputs. -/
def declared (inputNames : List String) (maps : List Script.Datum)
    (program : Script.Scope → Except ExpressionError Script.Datum) :
    Except Error (List Declaration) := do
  let result ← (program (Expression.bind inputNames maps)).mapError
    fun e => Error.within .beginScript (.expression e)
  (Expression.declare inputNames result).mapError Error.expression

/-- An expression whose two scripts are any functions of their scopes. -/
def expressionOf (inputs : List NamedInput)
    (first : Script.Scope → Except ExpressionError Script.Datum)
    (program : Script.Scope → Option Script.Scope) : Alloc Operator := do
  let names := inputs.map NamedInput.name
  let ds ← liftExcept (declared names (← inputs.mapM describeInput) first)
  let outputs ← ds.mapM pushDeclared
  return make (.expression ⟨names, ds, program, false⟩) (inputs.map NamedInput.pipe) outputs
where
  liftExcept {α : Type} : Except Error α → Alloc α
    | .ok a => return a
    | .error e => throw e

def beginProgram (body : List Script.Stmt) (scope : Script.Scope) :
    Except ExpressionError Script.Datum :=
  match Script.run body scope with
  | .ok (d, _) => return d
  | .error f => throw (.failed f.message)

def expression (inputs : List NamedInput) (beginScript stepScript : String) :
    Alloc Operator := do
  match Expression.compile .begin beginScript, Expression.compile .step stepScript with
  | .error e, _ | _, .error e => throw (.expression e)
  | .ok first, .ok body =>
    expressionOf inputs (beginProgram first) (Expression.programOf body)

/-- One histogram per element, over the given axis or over the limits of the element. -/
def histograms (input : Pipe) (bins : Nat) (axis : Option Axis) : Alloc Operator := do
  let lower ← Arena.values input.lower
  let upper ← Arena.values input.upper
  let hs ← (lower.zip upper).mapM fun l =>
    Histogram.push bins (axis.getD (Axis.ofLimits l.1 l.2))
  return make (.histograms hs) [input] []

def planeHistogram (x y : Pipe) (xBins yBins : Nat) (xAxis yAxis : Option Axis) :
    Alloc Operator := do
  scalars x y "h2d sink"
  let axisOf (p : Pipe) : Alloc Axis := do
    return Axis.ofLimits (← Arena.value p.lower 0) (← Arena.value p.upper 0)
  let xAxis ← match xAxis with
    | some a => pure a
    | none => axisOf x
  let yAxis ← match yAxis with
    | some a => pure a
    | none => axisOf y
  return make (.planeHistogram (← PlaneHistogram.push xBins yBins xAxis yAxis)) [x, y] []

def rateMonitor (input : Pipe) (samplers : List Sampler) (mode : RateMode) : Alloc Operator := do
  if samplers.length ≠ input.length then
    throw (.build (.samplerCount samplers.length input.length))
  return make (.rateMonitor ⟨samplers, mode, ← Arena.pushSpan input.length⟩) [input] []

def maxSparse : Nat := 65535

def exportSink (inputs : List Pipe) (condition : Option Pipe) (path : String)
    (format : ExportFormat) (level : Int) : Alloc Operator := do
  if inputs.isEmpty then throw (.build .noExportInput)
  if level < -1 ∨ 9 < level then throw (.build (.compressionLevel level))
  if format = .sparse ∧ inputs.any fun p => maxSparse < p.length then throw (.build .sparseSize)
  if condition.any fun p => p.length = 0 then throw (.build .emptyExportCondition)
  return make (.exportSink (.new path format level condition.isSome))
    (inputs ++ condition.toList) []

def intervalCondition (input : Pipe) (intervals : List (Window Value)) : Alloc Operator := do
  if intervals.length ≠ input.length then
    throw (.build (.intervalCount intervals.length input.length))
  return make (.intervalCondition intervals 0) [input] []

def rectangleCondition (x y : Pipe) (xWindow yWindow : Window Value) : Alloc Operator := do
  scalars x y "rectangle condition"
  return make (.rectangleCondition xWindow yWindow 0) [x, y] []

def polygonCondition (x y : Pipe) (polygon : List (Value × Value)) : Alloc Operator := do
  scalars x y "polygon condition"
  if polygon.length < 3 then throw (.build .fewPoints)
  return make (.polygonCondition polygon 0) [x, y] []

end Readout.Operator
