import Readout.Proofs.Config.Built
import Readout.Proofs.Graph.Building
import Readout.Proofs.Operator.Remade

/-!
# Stages of a build

An operator is added in three stages: its references are resolved, which gives a recipe and a gate
bit; its maker takes what it needs from the arena; and the operator gets its place in the event and
its name. Only the second stage depends on where things lie, and only the arena can run full there.
-/
namespace Readout

/-- No event has more condition bits, since no operator has more of them than an arena has slots. -/
def EventPlan.maxBits : Nat := 2 ^ 56

namespace Draft

/-- A computation that looks at the draft. -/
def looking {α : Type} (f : Draft → Except Error α) : Drafting α := fun d => (f d, d)

theorem looking_bind {α β : Type} (f : Draft → Except Error α) (k : α → Drafting β) (d : Draft) :
    (looking f >>= k) d =
      match f d with
      | .ok v => k v d
      | .error e => (.error e, d) := by
  rw [bind_apply, looking]
  cases f d <;> rfl

theorem looking_then {α β : Type} (f : Draft → Except Error α) (g : Draft → α → Except Error β) :
    (looking f >>= fun v => looking fun d => g d v) = looking fun d => f d >>= g d := by
  funext d
  rw [looking_bind, looking]
  cases f d <;> rfl

theorem looking_pure {α β : Type} (f : Draft → Except Error α) (g : α → β) :
    (looking f >>= fun v => (pure (g v) : Drafting β)) =
      looking fun d => f d >>= fun v => pure (g v) :=
  looking_then f fun _ v => pure (g v)

theorem looking_mapM {α γ : Type} (f : γ → Draft → Except Error α) (cs : List γ) :
    (cs.mapM fun c => looking (f c)) = looking fun d => cs.mapM fun c => f c d := by
  induction cs with
  | nil => rfl
  | cons c cs ih =>
    have hrest : (looking (f c) >>= fun v => cs.mapM (fun c => looking (f c)) >>= fun vs =>
        (pure (v :: vs) : Drafting (List α))) = looking fun d => f c d >>= fun v =>
          (cs.mapM fun c => f c d) >>= fun vs => pure (v :: vs) := by
      simp only [ih, looking_pure, looking_then (f c)
        (fun d v => (cs.mapM fun c => f c d) >>= fun vs => pure (v :: vs))]
    simpa only [List.mapM_cons] using hrest

def pipe (event : Nat) (text : String) (d : Draft) : Except Error Pipe := do
  let r ← (Reference.read text).mapError Error.config
  (d.resolvePipe event text r).mapError Error.config

theorem reference_eq (text : String) :
    reference text = looking fun _ => (Reference.read text).mapError Error.config := by
  funext d
  rw [reference, looking]
  cases (Reference.read text).mapError Error.config <;> rfl

theorem resolve_eq (event : Nat) (text : String) :
    resolve event text = looking (pipe event text) := by
  funext d
  rw [resolve, reference_eq, looking_bind, looking, pipe]
  cases (Reference.read text).mapError Error.config with
  | error e => rfl
  | ok r =>
    change (ofExcept ((d.resolvePipe event text r).mapError Error.config) : Drafting Pipe) d = _
    change _ = ((d.resolvePipe event text r).mapError Error.config, d)
    cases (d.resolvePipe event text r).mapError Error.config <;> rfl

def input (event : Nat) (i : InputConfig) (d : Draft) : Except Error Operator.NamedInput := do
  let name ← match i.name with
    | some n => pure n
    | none => (·.name) <$> (Reference.read i.input).mapError Error.config
  return ⟨← d.pipe event i.input, name, i.unit⟩

theorem resolveInput_eq (event : Nat) (i : InputConfig) :
    resolveInput event i = looking (input event i) := by
  funext d
  rw [resolveInput, resolve_eq, looking, input]
  cases i.name with
  | some n =>
    simp only [pure_bind, looking_bind]
    cases pipe event i.input d <;> rfl
  | none =>
    rw [reference]
    cases (Reference.read i.input).mapError Error.config with
    | error e => rfl
    | ok r =>
      change (looking (pipe event i.input) >>= _) d = _
      rw [looking_bind]
      change _ = (pipe event i.input d >>= _, d)
      cases pipe event i.input d <;> rfl

/-- What an operator is made from, once its references are resolved. -/
def recipe (event : Nat) (o : OperatorSpec) (d : Draft) : Except Error Recipe :=
  match o with
  | .calibration input unitMin unitMax perElement => do
    let p ← d.pipe event input
    return .calibration p
      (if perElement.isEmpty then List.replicate p.length (unitMin, unitMax) else perElement)
  | .keepPrevious input keepValid => return .keepPrevious (← d.pipe event input) keepValid
  | .difference a b => return .difference (← d.pipe event a) (← d.pipe event b)
  | .arrayMap inputs mappings =>
    return .arrayMap (← inputs.mapM fun i => d.pipe event i) mappings
  | .equation a b e outputMin outputMax =>
    return .equation (← d.pipe event a) (← d.pipe event b) e outputMin outputMax
  | .aggregate input r min max =>
    return .aggregate (← d.pipe event input) r ⟨min.getD Value.unset, max.getD Value.unset⟩
  | .rangeFilter input min max inverted =>
    return .rangeFilter (← d.pipe event input) ⟨min, max⟩ inverted
  | .rectangleFilter x y xRange yRange junction =>
    return .rectangleFilter (← d.pipe event x) (← d.pipe event y) (windowOf xRange)
      (windowOf yRange) junction
  | .conditionFilter data condition inverted =>
    return .conditionFilter (← d.pipe event data) (← d.pipe event condition) inverted
  | .scalerOverflow input => return .scalerOverflow (← d.pipe event input)
  | .expression inputs beginScript stepScript => do
    let is ← inputs.mapM fun i => d.input event i
    match Expression.compile .begin beginScript, Expression.compile .step stepScript with
    | .error e, _ | _, .error e => throw (.expression e)
    | .ok first, .ok body =>
      return .expression is (Operator.beginProgram first) (Expression.programOf body)
  | .histograms input bins range =>
    return .histograms (← d.pipe event input) bins (range.map axisOf)
  | .planeHistogram x y xBins yBins xRange yRange =>
    return .planeHistogram (← d.pipe event x) (← d.pipe event y) xBins yBins (xRange.map axisOf)
      (yRange.map axisOf)
  | .rateMonitor input mode scale offset history => do
    let p ← d.pipe event input
    return .rateMonitor p (List.replicate p.length (Sampler.new scale offset history)) mode
  | .exportSink inputs condition path format level => do
    let pipes ← inputs.mapM fun i => d.pipe event i
    return .exportSink pipes (← condition.mapM fun i => d.pipe event i) path format level
  | .intervalCondition input intervals => do
    let p ← d.pipe event input
    return .intervalCondition p (intervalsFor p.length intervals)
  | .rectangleCondition x y xRange yRange =>
    return .rectangleCondition (← d.pipe event x) (← d.pipe event y) (windowOf xRange)
      (windowOf yRange)
  | .polygonCondition x y polygon =>
    return .polygonCondition (← d.pipe event x) (← d.pipe event y) polygon

theorem looking_make {α : Type} (f : Draft → Except Error α) (r : α → Recipe) :
    (looking f >>= fun v => alloc (r v).make) =
      looking (fun d => f d >>= fun v => pure (r v)) >>= fun r => alloc r.make := by
  rw [← looking_pure, bind_assoc]
  simp only [pure_bind]

theorem looking_make₂ {α β : Type} (f : Draft → Except Error α)
    (g : Draft → α → Except Error β) (r : α → β → Recipe) :
    (looking f >>= fun v => looking (fun d => g d v) >>= fun w => alloc (r v w).make) =
      looking (fun d => f d >>= fun v => g d v >>= fun w => pure (r v w)) >>= fun r =>
        alloc r.make := by
  rw [← looking_then f fun d v => g d v >>= fun w => pure (r v w), bind_assoc]
  simp only [← looking_pure, bind_assoc, pure_bind]

theorem makeOperator_eq (event : Nat) (o : OperatorSpec) :
    makeOperator event o = looking (recipe event o) >>= fun r => alloc r.make := by
  have hone := fun (input : String) (r : Pipe → Recipe) => looking_make (pipe event input) r
  have htwo := fun (a b : String) => looking_make₂ (pipe event a) (fun d _ => pipe event b d)
  cases o with
  | calibration input unitMin unitMax perElement =>
    rw [makeOperator, resolve_eq]
    refine Eq.trans ?_ (hone input _)
    congr 1
    funext p
    split <;> rfl
  | keepPrevious input keepValid =>
    rw [makeOperator, resolve_eq]
    exact hone input fun p => .keepPrevious p keepValid
  | difference a b =>
    rw [makeOperator, resolve_eq, resolve_eq]
    exact htwo a b .difference
  | arrayMap inputs mappings =>
    rw [makeOperator, funext (resolve_eq event), looking_mapM]
    exact looking_make _ fun ps => .arrayMap ps mappings
  | equation a b e outputMin outputMax =>
    rw [makeOperator, resolve_eq, resolve_eq]
    exact htwo a b fun p q => .equation p q e outputMin outputMax
  | aggregate input r min max =>
    rw [makeOperator, resolve_eq]
    exact hone input fun p => .aggregate p r ⟨min.getD Value.unset, max.getD Value.unset⟩
  | rangeFilter input min max inverted =>
    rw [makeOperator, resolve_eq]
    exact hone input fun p => .rangeFilter p ⟨min, max⟩ inverted
  | rectangleFilter x y xRange yRange junction =>
    rw [makeOperator, resolve_eq, resolve_eq]
    exact htwo x y fun p q => .rectangleFilter p q (windowOf xRange) (windowOf yRange) junction
  | conditionFilter data condition inverted =>
    rw [makeOperator, resolve_eq, resolve_eq]
    exact htwo data condition fun p q => .conditionFilter p q inverted
  | scalerOverflow input =>
    rw [makeOperator, resolve_eq]
    exact hone input .scalerOverflow
  | expression inputs beginScript stepScript =>
    rw [makeOperator, funext (resolveInput_eq event), looking_mapM]
    funext d
    rw [looking_bind, looking_bind]
    simp only [recipe, Operator.expression]
    cases inputs.mapM fun i => d.input event i with
    | error e => rfl
    | ok is =>
      cases Expression.compile .begin beginScript with
      | error e => rfl
      | ok first => cases Expression.compile .step stepScript <;> rfl
  | histograms input bins range =>
    rw [makeOperator, resolve_eq]
    exact hone input fun p => .histograms p bins (range.map axisOf)
  | planeHistogram x y xBins yBins xRange yRange =>
    rw [makeOperator, resolve_eq, resolve_eq]
    exact htwo x y fun p q => .planeHistogram p q xBins yBins (xRange.map axisOf)
      (yRange.map axisOf)
  | rateMonitor input mode scale offset history =>
    rw [makeOperator, resolve_eq]
    exact hone input fun p =>
      .rateMonitor p (List.replicate p.length (Sampler.new scale offset history)) mode
  | exportSink inputs condition path format level =>
    have hcond : (condition.mapM fun c => looking (pipe event c)) =
        looking fun d => condition.mapM fun c => d.pipe event c := by
      cases condition with
      | none => rfl
      | some c => exact looking_pure (pipe event c) some
    rw [makeOperator, funext (resolve_eq event), looking_mapM, hcond]
    exact looking_make₂ _ (fun d _ => condition.mapM fun c => d.pipe event c)
      fun ps gate => .exportSink ps gate path format level
  | intervalCondition input intervals =>
    rw [makeOperator, resolve_eq]
    exact hone input fun p => .intervalCondition p (intervalsFor p.length intervals)
  | rectangleCondition x y xRange yRange =>
    rw [makeOperator, resolve_eq, resolve_eq]
    exact htwo x y fun p q => .rectangleCondition p q (windowOf xRange) (windowOf yRange)
  | polygonCondition x y polygon =>
    rw [makeOperator, resolve_eq, resolve_eq]
    exact htwo x y fun p q => .polygonCondition p q polygon

def bit (event : Nat) (text : String) (d : Draft) : Except Error Nat := do
  let r ← (Reference.read text).mapError Error.config
  (d.resolveBit event text r).mapError Error.config

theorem resolveGate_eq (event : Nat) (text : String) :
    resolveGate event text = looking (bit event text) := by
  funext d
  rw [resolveGate, reference_eq, looking_bind, looking, bit]
  cases (Reference.read text).mapError Error.config with
  | error e => rfl
  | ok r =>
    change (ofExcept ((d.resolveBit event text r).mapError Error.config) : Drafting Nat) d = _
    change _ = ((d.resolveBit event text r).mapError Error.config, d)
    cases (d.resolveBit event text r).mapError Error.config <;> rfl

def gateBit (event : Nat) (gate : Option String) (d : Draft) : Except Error (Option Nat) :=
  match gate with
  | none => pure none
  | some g => some <$> d.bit event g

def claimed (event : Nat) (name : String) (d : Draft) : Except Error Unit :=
  if !Reference.isName name then throw (.config (.nodeName name))
  else if (d.find? event name).isSome then throw (.config (.duplicateName name))
  else pure ()

theorem claim_eq (event : Nat) (name : String) :
    claim event name = looking (claimed event name) := by
  funext d
  rw [claim, looking, claimed]
  cases Reference.isName name with
  | false => rfl
  | true =>
    change (if (d.find? event name).isSome then fail (.duplicateName name) else pure () :
      Drafting Unit) d = _
    cases (d.find? event name).isSome <;> rfl

end Draft

/-- With a gate bit, if there is one. -/
def Operator.gatedBy (op : Operator) : Option Nat → Operator
  | some bit => op.withGate bit
  | none => op

namespace Draft

theorem gated_eq (event : Nat) (gate : Option String) (op : Operator) :
    gated event gate op = looking (gateBit event gate) >>= fun g => pure (op.gatedBy g) := by
  cases gate with
  | none => rfl
  | some g =>
    rw [gated, resolveGate_eq]
    funext d
    rw [looking_bind, looking_bind, gateBit]
    cases bit event g d <;> rfl

/-- The draft with a new operator. -/
def seat (event : Nat) (name : String) (a : Arena) (op : Operator) (e e' : EventPlan) (d : Draft) :
    Draft :=
  let p := { d.plan with arena := a, events := d.plan.events.set event e' }
  let h := Handle.new event e.operators.length
  { d with
    plan := p
    names := d.names.modify event (⟨name, op.outputs, p.bits? h⟩ :: ·)
    operators := (⟨event, name⟩, h) :: d.operators }

theorem addOperator_apply (event : Nat) (o : OperatorConfig) (d : Draft) :
    addOperator event o d =
      match d.claimed event o.name with
      | .error c => (.error c, d)
      | .ok _ =>
        match d.recipe event o.spec with
        | .error c => (.error c, d)
        | .ok r =>
          match r.make d.plan.arena with
          | (.error c, a) => (.error c, { d with plan := { d.plan with arena := a } })
          | (.ok op, a) =>
            match d.gateBit event o.gate with
            | .error c => (.error c, { d with plan := { d.plan with arena := a } })
            | .ok g =>
              match d.plan.events[event]? with
              | none => (.error (.build (.eventIndex event)),
                  { d with plan := { d.plan with arena := a } })
              | some e =>
                match e.addOperator (op.gatedBy g) with
                | .error c => (.error c, { d with plan := { d.plan with arena := a } })
                | .ok e' => (.ok (), d.seat event o.name a (op.gatedBy g) e e') := by
  have hgate : ∀ a, gateBit event o.gate { d with plan := { d.plan with arena := a } } =
      d.gateBit event o.gate := fun a => by
    cases o.gate <;> rfl
  rw [addOperator, claim_eq, looking_bind]
  cases d.claimed event o.name with
  | error c => rfl
  | ok _ =>
    dsimp only
    rw [makeOperator_eq, bind_assoc, looking_bind]
    cases d.recipe event o.spec with
    | error c => rfl
    | ok r =>
      dsimp only
      have halloc : alloc r.make d = ((r.make d.plan.arena).1,
        { d with plan := { d.plan with arena := (r.make d.plan.arena).2 } }) := rfl
      rw [bind_apply, halloc]
      rcases r.make d.plan.arena with ⟨c | op, a⟩
      · rfl
      · dsimp only
        rw [gated_eq, bind_assoc, looking_bind, hgate]
        cases d.gateBit event o.gate with
        | error c => rfl
        | ok g =>
          dsimp only
          rw [pure_bind, bind_apply, planning, Plan.addOperator_apply]
          dsimp only
          cases d.plan.events[event]? with
          | none => rfl
          | some e =>
            dsimp only
            cases e.addOperator (op.gatedBy g) with
            | error c => rfl
            | ok e' => rfl

/-- What each stage gives when an operator is added. -/
structure Stages (event : Nat) (o : OperatorConfig) (d : Draft) (r : Recipe) (op : Operator)
    (a : Arena) (g : Option Nat) (p p' : EventPlan) : Prop where
  claimed : d.claimed event o.name = .ok ()
  recipe : d.recipe event o.spec = .ok r
  make : r.make d.plan.arena = (.ok op, a)
  gate : d.gateBit event o.gate = .ok g
  event : d.plan.events[event]? = some p
  seat : p.addOperator (op.gatedBy g) = .ok p'

variable {d e : Draft} {event : Nat} {o : OperatorConfig}

theorem Stages.addOperator {r : Recipe} {op : Operator} {a : Arena} {g : Option Nat}
    {p p' : EventPlan} (h : Stages event o d r op a g p p') :
    addOperator event o d = (.ok (), d.seat event o.name a (op.gatedBy g) p p') := by
  rw [addOperator_apply, h.claimed, h.recipe]
  dsimp only
  rw [h.make]
  dsimp only
  rw [h.gate, h.event]
  dsimp only
  rw [h.seat]

theorem exists_stages (h : addOperator event o d = (.ok (), e)) :
    ∃ r op a g p p', Stages event o d r op a g p p' ∧
      e = d.seat event o.name a (op.gatedBy g) p p' := by
  rw [addOperator_apply] at h
  cases hclaim : d.claimed event o.name with
  | error c =>
    rw [hclaim] at h
    cases h
  | ok u =>
  cases hrecipe : d.recipe event o.spec with
  | error c =>
    rw [hclaim, hrecipe] at h
    cases h
  | ok r =>
  rw [hclaim, hrecipe] at h
  dsimp only at h
  rcases hmake : r.make d.plan.arena with ⟨c | op, a⟩
  · rw [hmake] at h
    cases h
  rw [hmake] at h
  dsimp only at h
  cases hgate : d.gateBit event o.gate with
  | error c =>
    rw [hgate] at h
    cases h
  | ok g =>
  rw [hgate] at h
  dsimp only at h
  cases hevent : d.plan.events[event]? with
  | none =>
    rw [hevent] at h
    cases h
  | some p =>
  rw [hevent] at h
  dsimp only at h
  cases hadd : p.addOperator (op.gatedBy g) with
  | error c =>
    rw [hadd] at h
    cases h
  | ok p' =>
  rw [hadd] at h
  exact ⟨r, op, a, g, p, p', ⟨hclaim, hrecipe, hmake, hgate, hevent, hadd⟩,
    (Prod.mk.inj h).2.symm⟩

end Draft

/-- What comes out on the right comes out on the left, and the results belong together. -/
def Yields {α β : Type} (x : Except Error α) (y : Except Error β) (V : α → β → Prop) : Prop :=
  ∀ w, y = .ok w → ∃ v, x = .ok v ∧ V v w

namespace Yields

variable {α β γ δ : Type} {x : Except Error α} {y : Except Error β} {k : α → Except Error γ}
  {l : β → Except Error δ} {V : α → β → Prop} {W : γ → δ → Prop}

theorem pure {v : α} {w : β} (h : V v w) : Yields (Pure.pure v) (Pure.pure w) V := by
  intro w' hw
  obtain rfl := Except.ok.inj hw
  exact ⟨v, rfl, h⟩

theorem bind (h : Yields x y V) (hk : ∀ v w, V v w → Yields (k v) (l w) W) :
    Yields (x >>= k) (y >>= l) W := by
  intro w hw
  obtain ⟨u, rfl, hu⟩ := exists_of_bind_eq_ok hw
  obtain ⟨v, rfl, hv⟩ := h u rfl
  exact hk v u hv w hu

theorem same {r : Except Error α} : Yields r r fun v w => v = w := fun w hw => ⟨w, hw, rfl⟩

theorem mapM {f : γ → Except Error α} {g : γ → Except Error β} {cs : List γ}
    (h : ∀ c ∈ cs, Yields (f c) (g c) V) : Yields (cs.mapM f) (cs.mapM g) (List.Forall₂ V) := by
  induction cs with
  | nil => exact .pure .nil
  | cons c cs ih =>
    obtain ⟨hc, hcs⟩ := List.forall_mem_cons.1 h
    rw [List.mapM_cons, List.mapM_cons]
    exact hc.bind fun v w hv => (ih hcs).bind fun vs ws hvs => .pure (.cons hv hvs)

theorem optionMapM {f : γ → Except Error α} {g : γ → Except Error β} {o : Option γ}
    (h : ∀ c ∈ o, Yields (f c) (g c) V) : Yields (o.mapM f) (o.mapM g) (Option.Rel V) := by
  cases o with
  | none => exact .pure .none
  | some c =>
    rw [Option.mapM_some, Option.mapM_some, map_eq_pure_bind, map_eq_pure_bind]
    exact (h c rfl).bind fun v w hv => .pure (.some hv)

end Yields

/-- Names whose pipes and bits are tied. -/
structure Named.Tied (R B : Ties) (n m : Named) : Prop where
  outputs : List.Forall₂ (Pipe.Tied R) n.outputs m.outputs
  bits : Option.Rel (fun x y => x.2 - x.1 = y.2 - y.1 ∧ ∀ k < y.2 - y.1, B (x.1 + k) (y.1 + k))
    n.bits m.bits

theorem Named.Tied.mono {R R' B B' : Ties} {n m : Named} (h : n.Tied R B m)
    (hR : ∀ i j, R i j → R' i j) (hB : ∀ i j, B i j → B' i j) : n.Tied R' B' m := by
  refine ⟨h.outputs.imp fun p q hpq => hpq.mono hR, ?_⟩
  match n.bits, m.bits, h.bits with
  | _, _, .some ⟨hlen, hbits⟩ => exact .some ⟨hlen, fun k hk => hB _ _ (hbits k hk)⟩
  | _, _, .none => exact .none

theorem Pipe.Tied.element {R : Ties} {s t : Store} {p q q' : Pipe} (h : p.Tied R q)
    (hst : s.Tied R t) {i : Nat} (hq : q.element? i = some q') :
    ∃ p', p.element? i = some p' ∧ p'.Tied R q' := by
  have hspan : ∀ {u v v' : Span}, u.Tied R v → v.element? i = some v' →
      ∃ u', u.element? i = some u' ∧ u'.Tied R v' := by
    intro u v v' huv hv
    have hrel := hst.element huv i
    rw [hv] at hrel
    match hu : u.element? i, hrel with
    | some u', .some hcell => exact ⟨u', rfl, hcell⟩
  obtain ⟨hd, hl, hu⟩ := Pipe.element?_eq_some hq
  obtain ⟨d, hd, hdt⟩ := hspan h.data hd
  obtain ⟨l, hl, hlt⟩ := hspan h.lower hl
  obtain ⟨u, hu, hut⟩ := hspan h.upper hu
  exact ⟨⟨d, l, u⟩, by rw [Pipe.element?, hd, hl, hu]; rfl, hdt, hlt, hut⟩

namespace Draft

variable {R B : Ties} {d e : Draft} {event : Nat} {s t : Store}

/-- A name that both drafts have stands for the same in both. -/
def Shares (R B : Ties) (event : Nat) (d e : Draft) : Prop :=
  ∀ name n m, d.find? event name = some n → e.find? event name = some m → n.Tied R B m

theorem exists_of_isKnown {text : String} (h : d.isKnown event text = true) :
    ∃ r n, Reference.parse? text = some r ∧ d.find? event r.name = some n := by
  rw [isKnown] at h
  cases hr : Reference.parse? text with
  | none =>
    rw [hr] at h
    cases h
  | some r =>
    rw [hr] at h
    obtain ⟨n, hn⟩ := Option.isSome_iff_exists.1 h
    exact ⟨r, n, rfl, hn⟩

theorem resolvePipe_eq_ok {text : String} {r : Reference} {q : Pipe} :
    d.resolvePipe event text r = .ok q ↔ ∃ n p, d.find? event r.name = some n ∧
      n.outputs[r.output]? = some p ∧ r.element.elim (some p) p.element? = some q := by
  rw [resolvePipe]
  cases d.find? event r.name with
  | none => simp [throw, throwThe, MonadExceptOf.throw]
  | some n =>
    cases hp : n.outputs[r.output]? with
    | none => simp [hp, throw, throwThe, MonadExceptOf.throw]
    | some p =>
      cases hr : r.element with
      | none => simp [hp, pure, Except.pure]
      | some i => cases hi : p.element? i <;>
          simp [hp, hi, pure, Except.pure, throw, throwThe, MonadExceptOf.throw]

theorem resolveBit_eq_ok {text : String} {r : Reference} {j : Nat} :
    d.resolveBit event text r = .ok j ↔ ∃ n span, d.find? event r.name = some n ∧
      n.bits = some span ∧ r.output = 0 ∧ j < span.2 ∧
        (span.1 + r.element.getD 0) % Word.size 64 = j := by
  rw [resolveBit]
  cases d.find? event r.name with
  | none => simp [throw, throwThe, MonadExceptOf.throw]
  | some n =>
    obtain ⟨name, outputs, bits⟩ := n
    cases bits with
    | none => simp [throw, throwThe, MonadExceptOf.throw]
    | some span =>
      obtain ⟨low, stop⟩ := span
      simp only [Option.some.injEq, exists_and_left, exists_eq_left']
      by_cases hbad : r.output ≠ 0 ∨ stop ≤ (low + r.element.getD 0) % Word.size 64
      · rw [if_pos hbad]
        refine ⟨fun h => (by cases h), fun ⟨ho, hlt, heq⟩ => ?_⟩
        omega
      · rw [if_neg hbad]
        refine ⟨fun h => ?_, fun h => congrArg Except.ok h.2.2⟩
        obtain rfl := Except.ok.inj h
        exact ⟨by omega, by omega, rfl⟩

theorem read_of_parse {text : String} {r : Reference} (hr : Reference.parse? text = some r) :
    (Reference.read text).mapError Error.config = .ok r := by
  rw [Reference.read, hr]
  rfl

theorem yields_pipe (hst : s.Tied R t) (h : Shares R B event d e) {text : String}
    (hk : d.isKnown event text = true) :
    Yields (d.pipe event text) (e.pipe event text) (Pipe.Tied R) := by
  obtain ⟨r, n, hr, hn⟩ := exists_of_isKnown hk
  rw [pipe, pipe, read_of_parse hr]
  intro q hq
  have hq : e.resolvePipe event text r = .ok q := exists_of_mapError_eq_ok hq
  obtain ⟨m, q₀, hm, hout, hq⟩ := resolvePipe_eq_ok.1 hq
  have hnm := h r.name n m hn hm
  obtain ⟨p₀, hp₀, hpq⟩ : ∃ p₀, n.outputs[r.output]? = some p₀ ∧ p₀.Tied R q₀ := by
    obtain ⟨hlt, rfl⟩ := List.getElem?_eq_some_iff.1 hout
    have hlt' : r.output < n.outputs.length := hnm.outputs.length_eq ▸ hlt
    exact ⟨_, List.getElem?_eq_getElem hlt', hnm.outputs.get hlt' hlt⟩
  obtain ⟨p, hp, hpq⟩ : ∃ p, r.element.elim (some p₀) p₀.element? = some p ∧ p.Tied R q := by
    cases he : r.element with
    | none =>
      rw [he] at hq
      obtain rfl := Option.some.inj hq
      exact ⟨p₀, rfl, hpq⟩
    | some i =>
      rw [he] at hq
      exact hpq.element hst hq
  refine ⟨p, ?_, hpq⟩
  have hok : d.resolvePipe event text r = .ok p := resolvePipe_eq_ok.2 ⟨n, p₀, hn, hp₀, hp⟩
  change (d.resolvePipe event text r).mapError Error.config = _
  rw [hok]
  rfl

/-- The bits of all names are among the first ones. -/
def Narrow (event : Nat) (d : Draft) : Prop :=
  ∀ name n, d.find? event name = some n → ∀ span ∈ n.bits,
    span.1 ≤ EventPlan.maxBits ∧ span.2 ≤ EventPlan.maxBits

theorem yields_bit (h : Shares R B event d e) (hd : d.Narrow event) (he : e.Narrow event)
    {text : String} (hk : d.isKnown event text = true)
    (hel : ∀ r ∈ Reference.parse? text, r.element.getD 0 + EventPlan.maxBits < Word.size 64) :
    Yields (d.bit event text) (e.bit event text) B := by
  obtain ⟨r, n, hr, hn⟩ := exists_of_isKnown hk
  have hsize : Word.size 64 = 2 ^ 64 := rfl
  have hmax : EventPlan.maxBits = 2 ^ 56 := rfl
  have hsmall := hel r hr
  rw [bit, bit, read_of_parse hr]
  intro j hj
  have hj : e.resolveBit event text r = .ok j := exists_of_mapError_eq_ok hj
  obtain ⟨m, y, hm, hy, ho, hlt, heq⟩ := resolveBit_eq_ok.1 hj
  have hye := he r.name m hm y hy
  have hbits := (h r.name n m hn hm).bits
  rw [hy] at hbits
  match hx : n.bits, hbits with
  | some x, .some ⟨hlen, hcells⟩ =>
    have hxd := hd r.name n hn x hx
    rw [hsize] at heq
    have hyj : y.1 + r.element.getD 0 = j := by omega
    have hxj : (x.1 + r.element.getD 0) % Word.size 64 = x.1 + r.element.getD 0 := by
      rw [hsize]
      omega
    refine ⟨x.1 + r.element.getD 0, ?_, hyj ▸ hcells _ (by omega)⟩
    have hok : d.resolveBit event text r = .ok (x.1 + r.element.getD 0) :=
      resolveBit_eq_ok.2 ⟨n, x, hn, hx, ho, by omega, hxj⟩
    change (d.resolveBit event text r).mapError Error.config = _
    rw [hok]
    rfl

theorem yields_gateBit (h : Shares R B event d e) (hd : d.Narrow event) (he : e.Narrow event)
    {gate : Option String} (hk : ∀ text ∈ gate, d.isKnown event text = true)
    (hel : ∀ text ∈ gate, ∀ r ∈ Reference.parse? text,
      r.element.getD 0 + EventPlan.maxBits < Word.size 64) :
    Yields (d.gateBit event gate) (e.gateBit event gate) (Option.Rel B) := by
  cases gate with
  | none => exact .pure .none
  | some text =>
    rw [gateBit, gateBit, map_eq_pure_bind, map_eq_pure_bind]
    exact (yields_bit h hd he (hk text rfl) (hel text rfl)).bind fun i j hij => .pure (.some hij)

theorem yields_input (hst : s.Tied R t) (h : Shares R B event d e) {i : InputConfig}
    (hk : d.isKnown event i.input = true) :
    Yields (d.input event i) (e.input event i) (Operator.NamedInput.Tied R) := by
  have hpipe : ∀ name : String, Yields
      (d.pipe event i.input >>= fun p => pure (⟨p, name, i.unit⟩ : Operator.NamedInput))
      (e.pipe event i.input >>= fun p => pure (⟨p, name, i.unit⟩ : Operator.NamedInput))
      (Operator.NamedInput.Tied R) := fun name =>
    (yields_pipe hst h hk).bind fun p q hpq => .pure ⟨hpq, rfl, rfl⟩
  rw [input, input]
  cases i.name with
  | some name => exact hpipe name
  | none =>
    refine Yields.same.bind ?_
    rintro name _ rfl
    exact hpipe name

/-- From the same references come tied recipes. -/
theorem yields_recipe (hst : s.Tied R t) (h : Shares R B event d e) {o : OperatorSpec}
    (hk : ∀ text ∈ o.inputs, d.isKnown event text = true) :
    Yields (d.recipe event o) (e.recipe event o) (Recipe.Tied R) := by
  have hone : ∀ (input : String) (k l : Pipe → Recipe), o.inputs = [input] →
      (∀ p q, p.Tied R q → (k p).Tied R (l q)) →
      Yields (d.pipe event input >>= fun p => pure (k p))
        (e.pipe event input >>= fun p => pure (l p)) (Recipe.Tied R) := by
    intro input k l hi hkl
    have hinput := hk input (hi ▸ List.mem_cons_self)
    exact (yields_pipe hst h hinput).bind fun p q hpq => .pure (hkl p q hpq)
  have htwo : ∀ (a b : String) (k : Pipe → Pipe → Recipe), o.inputs = [a, b] →
      (∀ p q p' q', p.Tied R q → p'.Tied R q' → (k p p').Tied R (k q q')) →
      Yields (d.pipe event a >>= fun p => d.pipe event b >>= fun p' => pure (k p p'))
        (e.pipe event a >>= fun p => e.pipe event b >>= fun p' => pure (k p p'))
        (Recipe.Tied R) := by
    intro a b k hi hkl
    obtain ⟨ha, hb⟩ := List.forall_mem_cons.1 (hi ▸ hk)
    exact (yields_pipe hst h ha).bind fun p q hpq =>
      (yields_pipe hst h (hb b List.mem_cons_self)).bind fun p' q' hpq' =>
        .pure (hkl p q p' q' hpq hpq')
  have hall : ∀ inputs : List String, (∀ text ∈ inputs, d.isKnown event text = true) →
      Yields (inputs.mapM fun i => d.pipe event i) (inputs.mapM fun i => e.pipe event i)
        (List.Forall₂ (Pipe.Tied R)) := fun inputs hi =>
    .mapM fun i him => yields_pipe hst h (hi i him)
  cases o with
  | calibration input unitMin unitMax perElement =>
    refine hone input _ _ rfl fun p q hpq => ?_
    rw [hpq.length_eq]
    exact .calibration hpq _
  | keepPrevious input keepValid =>
    exact hone input _ _ rfl fun p q hpq => .keepPrevious hpq keepValid
  | difference a b => exact htwo a b .difference rfl fun _ _ _ _ => .difference
  | arrayMap inputs mappings =>
    exact (hall inputs hk).bind fun ps qs hpq => .pure (.arrayMap hpq mappings)
  | equation a b eq outputMin outputMax =>
    exact htwo a b (fun p q => .equation p q eq outputMin outputMax) rfl fun _ _ _ _ h h' =>
      .equation h h' eq outputMin outputMax
  | aggregate input r min max => exact hone input _ _ rfl fun p q hpq => .aggregate hpq r _
  | rangeFilter input min max inverted =>
    exact hone input _ _ rfl fun p q hpq => .rangeFilter hpq _ inverted
  | rectangleFilter x y xRange yRange junction =>
    exact htwo x y (fun p q => .rectangleFilter p q (windowOf xRange) (windowOf yRange) junction)
      rfl fun _ _ _ _ h h' => .rectangleFilter h h' _ _ junction
  | conditionFilter data condition inverted =>
    exact htwo data condition (fun p q => .conditionFilter p q inverted) rfl fun _ _ _ _ h h' =>
      .conditionFilter h h' inverted
  | scalerOverflow input => exact hone input _ _ rfl fun p q => .scalerOverflow
  | expression inputs beginScript stepScript =>
    refine (Yields.mapM fun i hi => yields_input hst h (hk _ (List.mem_map_of_mem hi))).bind
      fun is js hij => ?_
    cases Expression.compile .begin beginScript with
    | error c => exact fun r hr => by cases hr
    | ok first =>
      cases Expression.compile .step stepScript with
      | error c => exact fun r hr => by cases hr
      | ok body => exact .pure (.expression hij _ _)
  | histograms input bins range => exact hone input _ _ rfl fun p q hpq => .histograms hpq bins _
  | planeHistogram x y xBins yBins xRange yRange =>
    exact htwo x y (fun p q => .planeHistogram p q xBins yBins (xRange.map axisOf)
      (yRange.map axisOf)) rfl fun _ _ _ _ h h' => .planeHistogram h h' xBins yBins _ _
  | rateMonitor input mode scale offset history =>
    refine hone input _ _ rfl fun p q hpq => ?_
    rw [hpq.length_eq]
    exact .rateMonitor hpq _ mode
  | exportSink inputs condition path format level =>
    obtain ⟨hinputs, hcond⟩ := List.forall_mem_append.1 hk
    refine (hall inputs hinputs).bind fun ps qs hpq => ?_
    refine (Yields.optionMapM fun c hc =>
      yields_pipe hst h (hcond c (Option.mem_toList.2 hc))).bind fun c c' hc => ?_
    exact .pure (.exportSink hpq hc path format level)
  | intervalCondition input intervals =>
    refine hone input _ _ rfl fun p q hpq => ?_
    rw [hpq.length_eq]
    exact .intervalCondition hpq _
  | rectangleCondition x y xRange yRange =>
    exact htwo x y (fun p q => .rectangleCondition p q (windowOf xRange) (windowOf yRange)) rfl
      fun _ _ _ _ h h' => .rectangleCondition h h' _ _
  | polygonCondition x y polygon =>
    exact htwo x y (fun p q => .polygonCondition p q polygon) rfl fun _ _ _ _ h h' =>
      .polygonCondition h h' polygon

end Draft

end Readout
