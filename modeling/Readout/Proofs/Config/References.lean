import Readout.Proofs.Config.Stages
import Readout.Proofs.Operator.Causes

/-!
# References of operators that are ready

The list of what an operator refers to is complete: whatever its maker or its gate looks up is on
it. So an operator that is ready is not found to refer to an unknown name or condition when it is
added (`Draft.found_addOperator`). It may still fail for another reason.
-/
namespace Readout

/-- A reference is malformed, or nothing has its name. -/
def Error.Unfound (e : Error) : Prop :=
  match e.root with
  | config (.malformedReference _) | config (.unknownReference _) | config (.unknownCondition _)
  | config (.unresolved _) => True
  | _ => False

theorem Error.Unfound.isConfig {e : Error} (h : e.Unfound) : e.IsConfig := by
  rw [Unfound] at h
  rw [IsConfig]
  cases hroot : e.root with
  | config c => trivial
  | _ =>
    rw [hroot] at h
    exact h.elim

/-- What is looked up is found, though it may be of no use. -/
def Found {α : Type} (x : Except Error α) : Prop := ∀ e, x = .error e → ¬ e.Unfound

namespace Found

variable {α β γ : Type} {x : Except Error α} {k : α → Except Error β}

theorem pure (v : α) : Found (Pure.pure v : Except Error α) := by
  intro e h
  cases h

theorem throw {e : Error} (he : ¬ e.Unfound) : Found (MonadExcept.throw e : Except Error α) := by
  intro e' h
  obtain rfl := Except.error.inj h
  exact he

theorem bind (hx : Found x) (hk : ∀ v, Found (k v)) : Found (x >>= k) := by
  cases x with
  | ok v => exact hk v
  | error e =>
    intro e' h
    obtain rfl := Except.error.inj h
    exact hx _ rfl

theorem mapM {f : γ → Except Error α} {cs : List γ} (hf : ∀ c ∈ cs, Found (f c)) :
    Found (cs.mapM f) := by
  induction cs with
  | nil => exact pure []
  | cons c cs ih =>
    obtain ⟨hc, hcs⟩ := List.forall_mem_cons.1 hf
    rw [List.mapM_cons]
    exact hc.bind fun v => (ih hcs).bind fun vs => pure _

theorem optionMapM {f : γ → Except Error α} {o : Option γ} (hf : ∀ c ∈ o, Found (f c)) :
    Found (o.mapM f) := by
  cases o with
  | none => exact pure none
  | some c =>
    rw [Option.mapM_some, map_eq_pure_bind]
    exact (hf c rfl).bind fun v => pure _

end Found

namespace Draft

variable {d e : Draft} {event : Nat} {o : OperatorConfig} {text : String}

theorem found_pipe (hk : d.isKnown event text = true) : Found (d.pipe event text) := by
  obtain ⟨r, n, hr, hn⟩ := exists_of_isKnown hk
  rw [pipe, read_of_parse hr]
  change Found ((d.resolvePipe event text r).mapError Error.config)
  rw [resolvePipe, hn]
  dsimp only
  cases n.outputs[r.output]? with
  | none => exact .throw not_false
  | some p =>
    dsimp only
    cases r.element with
    | none => exact .pure p
    | some i =>
      dsimp only
      cases p.element? i with
      | none => exact .throw not_false
      | some q => exact .pure q

theorem found_bit (hk : d.isKnown event text = true) : Found (d.bit event text) := by
  obtain ⟨r, n, hr, hn⟩ := exists_of_isKnown hk
  rw [bit, read_of_parse hr]
  change Found ((d.resolveBit event text r).mapError Error.config)
  rw [resolveBit, hn]
  dsimp only
  cases n.bits with
  | none => exact .throw not_false
  | some span =>
    dsimp only
    split
    · exact .throw not_false
    · exact .pure _

theorem found_gateBit {gate : Option String} (hk : ∀ text ∈ gate, d.isKnown event text = true) :
    Found (d.gateBit event gate) := by
  cases gate with
  | none => exact .pure none
  | some text =>
    rw [gateBit, map_eq_pure_bind]
    exact (found_bit (hk text rfl)).bind fun b => .pure _

theorem found_input {i : InputConfig} (hk : d.isKnown event i.input = true) :
    Found (d.input event i) := by
  have hpipe : ∀ name : String, Found
      (d.pipe event i.input >>= fun p => pure (⟨p, name, i.unit⟩ : Operator.NamedInput)) :=
    fun name => (found_pipe hk).bind fun p => .pure _
  rw [input]
  cases i.name with
  | some name => exact hpipe name
  | none =>
    obtain ⟨r, n, hr, hn⟩ := exists_of_isKnown hk
    rw [read_of_parse hr]
    exact hpipe r.name

theorem found_claimed (name : String) : Found (d.claimed event name) := by
  rw [claimed]
  split
  · exact .throw not_false
  · split
    · exact .throw not_false
    · exact .pure ()

/-- Each kind of operator looks up what is on its list, and nothing else. -/
theorem found_recipe {s : OperatorSpec} (hk : ∀ text ∈ s.inputs, d.isKnown event text = true) :
    Found (d.recipe event s) := by
  have hone : ∀ (input : String) (k : Pipe → Recipe), s.inputs = [input] →
      Found (d.pipe event input >>= fun p => pure (k p)) := by
    intro input k hi
    exact (found_pipe (hk input (hi ▸ List.mem_cons_self))).bind fun p => .pure _
  have htwo : ∀ (a b : String) (k : Pipe → Pipe → Recipe), s.inputs = [a, b] →
      Found (d.pipe event a >>= fun p => d.pipe event b >>= fun q => pure (k p q)) := by
    intro a b k hi
    obtain ⟨ha, hb⟩ := List.forall_mem_cons.1 (hi ▸ hk)
    exact (found_pipe ha).bind fun p =>
      (found_pipe (hb b List.mem_cons_self)).bind fun q => .pure _
  have hall : ∀ inputs : List String, (∀ text ∈ inputs, d.isKnown event text = true) →
      Found (inputs.mapM fun i => d.pipe event i) :=
    fun inputs hi => .mapM fun i him => found_pipe (hi i him)
  cases s with
  | calibration input unitMin unitMax perElement => exact hone input _ rfl
  | keepPrevious input keepValid => exact hone input _ rfl
  | difference a b => exact htwo a b .difference rfl
  | arrayMap inputs mappings => exact (hall inputs hk).bind fun ps => .pure _
  | equation a b e outputMin outputMax => exact htwo a b _ rfl
  | aggregate input r min max => exact hone input _ rfl
  | rangeFilter input min max inverted => exact hone input _ rfl
  | rectangleFilter x y xRange yRange junction => exact htwo x y _ rfl
  | conditionFilter data condition inverted => exact htwo data condition _ rfl
  | scalerOverflow input => exact hone input _ rfl
  | expression inputs beginScript stepScript =>
    refine Found.bind (.mapM fun i hi => found_input (hk _ (List.mem_map_of_mem hi))) fun is => ?_
    cases Expression.compile .begin beginScript with
    | error c => exact .throw not_false
    | ok first =>
      cases Expression.compile .step stepScript with
      | error c => exact .throw not_false
      | ok body => exact .pure _
  | histograms input bins range => exact hone input _ rfl
  | planeHistogram x y xBins yBins xRange yRange => exact htwo x y _ rfl
  | rateMonitor input mode scale offset history => exact hone input _ rfl
  | exportSink inputs condition path format level =>
    obtain ⟨hinputs, hcond⟩ := List.forall_mem_append.1 hk
    refine (hall inputs hinputs).bind fun ps => ?_
    exact (Found.optionMapM fun c hc => found_pipe (hcond c (Option.mem_toList.2 hc))).bind
      fun c => .pure _
  | intervalCondition input intervals => exact hone input _ rfl
  | rectangleCondition x y xRange yRange => exact htwo x y _ rfl
  | polygonCondition x y polygon => exact htwo x y _ rfl

theorem found_seat (p : EventPlan) (op : Operator) : Found (p.addOperator op) := by
  rw [EventPlan.addOperator]
  split
  · exact .throw not_false
  · refine Found.bind ?_ fun rank => .pure _
    cases p.rankFor op with
    | error c => exact .throw not_false
    | ok rank => exact .pure rank

/-- An operator that is ready is added, or fails for another reason than what it refers to. -/
theorem found_addOperator (hr : d.isReady event o = true) : Found (addOperator event o d).1 := by
  have hknown : ∀ text ∈ o.references, d.isKnown event text = true := List.all_eq_true.1 hr
  obtain ⟨hinputs, hgates⟩ := List.forall_mem_append.1 hknown
  have hgates : ∀ text ∈ o.gate, d.isKnown event text = true := fun text ht =>
    hgates text (Option.mem_toList.2 ht)
  -- one stage after the other: each fails with an error of its own, or the next one is run
  rw [addOperator_apply]
  cases hclaim : d.claimed event o.name with
  | error c => exact .throw (found_claimed o.name c hclaim)
  | ok u =>
  cases hrecipe : d.recipe event o.spec with
  | error c => exact .throw (found_recipe hinputs c hrecipe)
  | ok r =>
  dsimp only
  rcases hmake : r.make d.plan.arena with ⟨c | op, a⟩
  · exact .throw fun hc => r.nameless_make _ c a hmake hc.isConfig
  dsimp only
  cases hgate : d.gateBit event o.gate with
  | error c => exact .throw (found_gateBit hgates c hgate)
  | ok g =>
  dsimp only
  cases d.plan.events[event]? with
  | none => exact .throw not_false
  | some p =>
  dsimp only
  cases hseat : p.addOperator (op.gatedBy g) with
  | error c => exact .throw (found_seat p _ c hseat)
  | ok p' => exact .pure ()

end Draft

end Readout
