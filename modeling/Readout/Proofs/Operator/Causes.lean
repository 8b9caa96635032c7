import Readout.Proofs.Operator.Recipe

/-!
# What makers fail for

Names and references are found before an operator is made. So what a maker fails for is a size, a
number, a script, or the room in the arena, and never a name (`Recipe.nameless_make`).
-/
namespace Readout

/-- The cause is a name, a reference or another part of the configuration. -/
def Error.IsConfig (e : Error) : Prop :=
  match e.root with
  | config _ => True
  | _ => False

/-- The computation does not fail for a part of the configuration. -/
def Nameless {α : Type} (x : Alloc α) : Prop := ∀ a e b, x a = (.error e, b) → ¬ e.IsConfig

namespace Nameless

variable {α β γ : Type} {x : Alloc α} {k : α → Alloc β}

theorem pure (v : α) : Nameless (Pure.pure v : Alloc α) := by
  intro a e b h
  cases h

theorem throw {e : Error} (he : ¬ e.IsConfig) : Nameless (MonadExcept.throw e : Alloc α) := by
  intro a e' b h
  obtain ⟨h, -⟩ := Prod.mk.inj h
  obtain rfl := Except.error.inj h
  exact he

theorem bind (hx : Nameless x) (hk : ∀ v, Nameless (k v)) : Nameless (x >>= k) := by
  intro a e b h
  rw [bind_apply] at h
  rcases ha : x a with ⟨e' | v, c⟩
  · rw [ha] at h
    obtain ⟨h, -⟩ := Prod.mk.inj h
    obtain rfl := Except.error.inj h
    exact hx a _ c ha
  · rw [ha] at h
    exact hk v c e b h

theorem check {c : Prop} [Decidable c] {e : BuildError} {f : PUnit → Alloc α}
    (hf : Nameless (f ⟨⟩)) :
    Nameless (if c then MonadExcept.throw (.build e) >>= f else f ⟨⟩) := by
  have hthrow : Nameless (MonadExcept.throw (.build e) : Alloc PUnit) := throw not_false
  split
  · exact hthrow.bind fun _ => hf
  · exact hf

/-- Looking at an arena, or writing to its store, does not fail. -/
theorem look (f : Arena → α × Arena) :
    Nameless (fun a => (Except.ok (f a).1, (f a).2) : Alloc α) := by
  intro a e b h
  cases h

theorem values (p : Span) : Nameless (Arena.values p) := look fun a => (a.store.values p, a)

theorem value (p : Span) (i : Nat) : Nameless (Arena.value p i) :=
  look fun a => (a.store.get p i, a)

theorem assign (p : Span) (vs : List Value) : Nameless (Arena.assign p vs) :=
  look fun a => (PUnit.unit, { a with store := a.store.assign p vs })

theorem mapM {f : γ → Alloc α} (hf : ∀ c, Nameless (f c)) (cs : List γ) :
    Nameless (cs.mapM f) := by
  induction cs with
  | nil => exact pure []
  | cons c cs ih =>
    rw [List.mapM_cons]
    exact (hf c).bind fun v => ih.bind fun vs => pure _

theorem place {a : Arena} {size align : Nat} {e : Error} (h : a.place size align = .error e) :
    ¬ e.IsConfig := by
  rw [Arena.place] at h
  split at h
  · obtain rfl := Except.error.inj h
    exact not_false
  · dsimp only at h
    split at h
    · cases h
    · obtain rfl := Except.error.inj h
      exact not_false

theorem pushFilled (length : Nat) (v : Value) : Nameless (Arena.pushFilled length v) := by
  intro a e b h
  rw [Arena.pushFilled_apply] at h
  split at h
  · obtain rfl := Except.error.inj (Prod.mk.inj h).1
    exact not_false
  · split at h
    · next hplace =>
      obtain rfl := Except.error.inj (Prod.mk.inj h).1
      exact place hplace
    · split at h
      · obtain rfl := Except.error.inj (Prod.mk.inj h).1
        exact not_false
      · cases h

theorem pushSpan (length : Nat) : Nameless (Arena.pushSpan length) := pushFilled length Value.zero

theorem push (length : Nat) (lower upper : Value) : Nameless (Pipe.push length lower upper) :=
  (pushFilled length _).bind fun _ => (pushFilled length lower).bind fun _ =>
    (pushFilled length upper).bind fun _ => pure _

theorem copyLimits (source target : Pipe) : Nameless (Pipe.copyLimits source target) :=
  (values source.lower).bind fun _ => (assign target.lower _).bind fun _ =>
    (values source.upper).bind fun _ => assign target.upper _

end Nameless

namespace Operator

open Script (Scope Datum)

theorem nameless_sameSize (a b : Pipe) (what : String) : Nameless (sameSize a b what) := by
  rw [sameSize]
  split
  · exact .throw not_false
  · exact .pure ()

theorem nameless_scalars (x y : Pipe) (what : String) : Nameless (scalars x y what) := by
  rw [scalars]
  split
  · exact .throw not_false
  · exact .pure ()

theorem nameless_declareLimits (p : Pipe) (lower upper : List Value) :
    Nameless (declareLimits p lower upper) :=
  (Nameless.assign p.lower lower).bind fun _ => .assign p.upper upper

theorem nameless_pushLike (p : Pipe) : Nameless (pushLike p) :=
  (Nameless.push p.length _ _).bind fun out => (Nameless.copyLimits p out).bind fun _ => .pure out

theorem nameless_valuesEach (f : Pipe → Span) (ps : List Pipe) :
    Nameless (ps.mapM fun p => Arena.values (f p)) :=
  .mapM (fun p => .values (f p)) ps

theorem nameless_makeWith (kind : Kind) (inputs : List Pipe) {x : Alloc Pipe} (hx : Nameless x) :
    Nameless (x >>= fun o => pure (make kind inputs [o])) :=
  hx.bind fun _ => .pure _

theorem nameless_calibrationEach (input : Pipe) (units : List (Value × Value)) :
    Nameless (calibrationEach input units) := by
  rw [calibrationEach]
  apply Nameless.check
  refine (Nameless.push input.length _ _).bind fun out => ?_
  refine (Nameless.pushSpan _).bind fun factors => ?_
  refine (Nameless.values input.lower).bind fun _ => (Nameless.values input.upper).bind fun _ => ?_
  exact (nameless_declareLimits out _ _).bind fun _ => (Nameless.assign factors _).bind fun _ =>
    .pure _

theorem nameless_difference (a b : Pipe) : Nameless (difference a b) := by
  refine (nameless_sameSize a b "difference").bind fun _ => ?_
  refine (Nameless.push a.length _ _).bind fun out => ?_
  refine (Nameless.values a.lower).bind fun _ => (Nameless.values a.upper).bind fun _ => ?_
  refine (Nameless.values b.lower).bind fun _ => (Nameless.values b.upper).bind fun _ => ?_
  exact (nameless_declareLimits out _ _).bind fun _ => .pure _

theorem nameless_arrayMap (inputs : List Pipe) (mappings : List Mapping) :
    Nameless (arrayMap inputs mappings) := by
  rw [arrayMap]
  refine (Nameless.push mappings.length _ _).bind fun out => ?_
  refine (nameless_valuesEach Pipe.lower inputs).bind fun _ => ?_
  refine (nameless_valuesEach Pipe.upper inputs).bind fun _ => ?_
  exact (nameless_declareLimits out _ _).bind fun _ => .pure _

theorem nameless_conditionFilter (data condition : Pipe) (inverted : Bool) :
    Nameless (conditionFilter data condition inverted) := by
  rw [conditionFilter]
  exact .check (nameless_makeWith _ _ (nameless_pushLike data))

theorem nameless_scalerOverflow (input : Pipe) : Nameless (scalerOverflow input) := by
  refine (Nameless.pushFilled input.length _).bind fun _ => (Nameless.pushSpan _).bind fun _ => ?_
  refine (Nameless.push input.length _ _).bind fun out => ?_
  exact (Nameless.values input.lower).bind fun _ => (Nameless.assign out.lower _).bind fun _ =>
    .pure _

theorem nameless_declared {names : List String} {maps : List Datum}
    {first : Scope → Except ExpressionError Datum} {e : Error}
    (h : declared names maps first = .error e) : ¬ e.IsConfig := by
  rw [declared] at h
  cases hfirst : first (Expression.bind names maps) with
  | error c =>
    rw [hfirst] at h
    obtain rfl := Except.error.inj h
    exact not_false
  | ok result =>
    rw [hfirst] at h
    change (Expression.declare names result).mapError Error.expression = .error e at h
    cases hd : Expression.declare names result with
    | error c =>
      rw [hd] at h
      obtain rfl := Except.error.inj h
      exact not_false
    | ok ds =>
      rw [hd] at h
      cases h

theorem nameless_expressionOf (inputs : List NamedInput)
    (first : Scope → Except ExpressionError Datum) (program : Scope → Option Scope) :
    Nameless (expressionOf inputs first program) := by
  have hdescribe : ∀ i, Nameless (describeInput i) := fun i =>
    (Nameless.values i.pipe.lower).bind fun _ =>
      (Nameless.values i.pipe.upper).bind fun _ => .pure _
  have hpush : ∀ d, Nameless (pushDeclared d) := fun d =>
    (Nameless.push d.size _ _).bind fun out =>
      (nameless_declareLimits out _ _).bind fun _ => .pure _
  refine (Nameless.mapM hdescribe inputs).bind fun maps => ?_
  have hdeclared : Nameless (expressionOf.liftExcept
      (declared (inputs.map NamedInput.name) maps first)) := by
    cases hd : declared (inputs.map NamedInput.name) maps first with
    | ok ds => exact .pure ds
    | error e => exact .throw (nameless_declared hd)
  exact hdeclared.bind fun ds => (Nameless.mapM hpush ds).bind fun _ => .pure _

theorem nameless_histograms (input : Pipe) (bins : Nat) (axis : Option Axis) :
    Nameless (histograms input bins axis) := by
  have hpush : ∀ a, Nameless (Histogram.push bins a) := fun a => by
    rw [Histogram.push]
    exact .check ((Nameless.pushSpan bins).bind fun _ => .pure _)
  refine (Nameless.values input.lower).bind fun _ => (Nameless.values input.upper).bind fun _ => ?_
  exact (Nameless.mapM (fun _ => hpush _) _).bind fun _ => .pure _

theorem nameless_planeHistogram (x y : Pipe) (xBins yBins : Nat) (xAxis yAxis : Option Axis) :
    Nameless (planeHistogram x y xBins yBins xAxis yAxis) := by
  have hmake : ∀ a b, Nameless (PlaneHistogram.push xBins yBins a b >>= fun h =>
      pure (make (.planeHistogram h) [x, y] [])) := fun a b => by
    rw [PlaneHistogram.push]
    exact (Nameless.check ((Nameless.pushSpan _).bind fun _ => .pure _)).bind fun _ => .pure _
  have haxis : ∀ p : Pipe, Nameless (do
      let lower ← Arena.value p.lower 0
      let upper ← Arena.value p.upper 0
      pure (Axis.ofLimits lower upper)) := fun p =>
    (Nameless.value p.lower 0).bind fun _ => (Nameless.value p.upper 0).bind fun _ => .pure _
  rw [planeHistogram]
  refine (nameless_scalars x y "h2d sink").bind fun _ => ?_
  cases xAxis with
  | none =>
    refine (haxis x).bind fun a => ?_
    cases yAxis with
    | none => exact (haxis y).bind (hmake a)
    | some b => exact (Nameless.pure b).bind (hmake a)
  | some a =>
    refine (Nameless.pure a).bind fun a => ?_
    cases yAxis with
    | none => exact (haxis y).bind (hmake a)
    | some b => exact (Nameless.pure b).bind (hmake a)

theorem nameless_rateMonitor (input : Pipe) (samplers : List Sampler) (mode : RateMode) :
    Nameless (rateMonitor input samplers mode) := by
  rw [rateMonitor]
  exact .check ((Nameless.pushSpan _).bind fun _ => .pure _)

theorem nameless_exportSink (inputs : List Pipe) (condition : Option Pipe) (path : String)
    (format : ExportFormat) (level : Int) :
    Nameless (exportSink inputs condition path format level) := by
  rw [exportSink]
  exact .check (.check (.check (.check (.pure _))))

theorem nameless_intervalCondition (input : Pipe) (intervals : List (Window Value)) :
    Nameless (intervalCondition input intervals) := by
  rw [intervalCondition]
  exact .check (.pure _)

theorem nameless_polygonCondition (x y : Pipe) (polygon : List (Value × Value)) :
    Nameless (polygonCondition x y polygon) := by
  refine (nameless_scalars x y "polygon condition").bind fun _ => ?_
  exact .check (.pure _)

end Operator

/-- Once its references are resolved, an operator does not fail for a name. -/
theorem Recipe.nameless_make (r : Recipe) : Nameless r.make := by
  cases r with
  | calibration input units => exact Operator.nameless_calibrationEach input units
  | keepPrevious input keepValid =>
    exact (Nameless.pushFilled _ _).bind fun _ =>
      Operator.nameless_makeWith _ _ (Operator.nameless_pushLike input)
  | difference a b => exact Operator.nameless_difference a b
  | arrayMap inputs mappings => exact Operator.nameless_arrayMap inputs mappings
  | equation a b e lower upper =>
    exact (Operator.nameless_sameSize a b _).bind fun _ =>
      Operator.nameless_makeWith _ _ (Nameless.push _ _ _)
  | aggregate input r window =>
    exact (Nameless.values _).bind fun _ => (Nameless.values _).bind fun _ =>
      Operator.nameless_makeWith _ _ (Nameless.push _ _ _)
  | rangeFilter input window inverted =>
    exact Operator.nameless_makeWith _ _ (Operator.nameless_pushLike input)
  | rectangleFilter x y xWindow yWindow junction =>
    exact (Operator.nameless_scalars x y _).bind fun _ =>
      Operator.nameless_makeWith _ _ (Nameless.push _ _ _)
  | conditionFilter data condition inverted =>
    exact Operator.nameless_conditionFilter data condition inverted
  | scalerOverflow input => exact Operator.nameless_scalerOverflow input
  | expression inputs first program => exact Operator.nameless_expressionOf inputs first program
  | histograms input bins axis => exact Operator.nameless_histograms input bins axis
  | planeHistogram x y xBins yBins xAxis yAxis =>
    exact Operator.nameless_planeHistogram x y xBins yBins xAxis yAxis
  | rateMonitor input samplers mode => exact Operator.nameless_rateMonitor input samplers mode
  | exportSink inputs condition path format level =>
    exact Operator.nameless_exportSink inputs condition path format level
  | intervalCondition input intervals => exact Operator.nameless_intervalCondition input intervals
  | rectangleCondition x y xWindow yWindow =>
    exact (Operator.nameless_scalars x y _).bind fun _ => .pure _
  | polygonCondition x y polygon => exact Operator.nameless_polygonCondition x y polygon

end Readout
