import Readout.Proofs.Checked.Run
import Readout.Proofs.Config.Drafting

/-!
# Built analyses

While an analysis is built, its draft is a sound workbench: every operator is made from pipes that
have a name in its event or are elements of such, and added before the next one is made. So a build
that goes through yields a graph in which every event reads what it writes itself. The graph is in
range, and the calls of a run find everything that they look for.
-/
namespace Readout

namespace OperatorSpec

def planeBins? : OperatorSpec → Option Nat
  | planeHistogram _ _ xBins yBins _ _ => some (xBins * yBins)
  | _ => none

/-- The number of bins of a plane is not taken modulo the word size. -/
def Exact (o : OperatorSpec) : Prop := ∀ n ∈ o.planeBins?, n < Word.size 64

end OperatorSpec

def Config.Exact (c : Config) : Prop := ∀ e ∈ c.events, ∀ o ∈ e.operators, o.spec.Exact

namespace Draft

open Drafting

/-- The draft with nodes that were not added yet. -/
def bench (d : Draft) (sources : List Source) (ops : List Operator) : Workbench :=
  ⟨d.plan, [], sources, ops⟩

/-- Pipes that nodes of the event write. -/
def Writes (d : Draft) (event : Nat) (ps : List Pipe) : Prop :=
  ∃ e, d.plan.events[event]? = some e ∧ ps ⊆ e.outputs

/-- What holds of a draft while some nodes wait to be added. Kinds are exact if `x` holds. -/
structure Holding (x : Prop) (sources : List Source) (ops : List Operator) (d : Draft) :
    Prop where
  sound : (d.bench sources ops).Sound
  named : ∀ event, ∀ n ∈ d.namesOf event, d.Writes event n.outputs
  fed : ∀ e ∈ d.plan.events, e.Fed
  count : d.plan.events.length = Plan.maxEvents
  faithful : ∀ s ∈ (d.bench sources ops).allSources, s.decoder.Faithful
  exact : x → ∀ op ∈ (d.bench sources ops).allOperators, op.kind.Exact

/-- An operator waits to be added to an event, from whose names it was made. -/
def Waiting (x : Prop) (event : Nat) (op : Operator) (d : Draft) : Prop :=
  Holding x [] [op] d ∧ ∀ v ∈ op.inputs, d.Knows event v

variable {P : Draft → Prop} {x : Prop} {sources : List Source} {ops : List Operator} {event : Nat}

theorem outputs_subset_taps (d : Draft) (sources : List Source) (ops : List Operator)
    {e : EventPlan} (he : e ∈ d.plan.events) : e.outputs ⊆ (d.bench sources ops).taps := by
  intro p hp
  rcases List.mem_append.1 hp with hp | hp
  · obtain ⟨s, hs, hp⟩ := List.mem_flatMap.1 hp
    exact List.mem_append_left _ (List.mem_append_right _ (List.mem_flatMap.2
      ⟨s, List.mem_append_right _ (List.mem_flatMap.2 ⟨e, he, hs⟩), hp⟩))
  · obtain ⟨o, ho, hp⟩ := List.mem_flatMap.1 hp
    exact List.mem_append_right _ (List.mem_flatMap.2 ⟨o.operator,
      List.mem_append_right _ (List.mem_flatMap.2 ⟨e, he, List.mem_map_of_mem ho⟩), hp⟩)

theorem Holding.knows {d : Draft} (h : Holding x sources ops d) {v : Pipe}
    (hv : d.Knows event v) :
    ∃ e, d.plan.events[event]? = some e ∧ ∃ p ∈ e.outputs, v ∈ p.views := by
  obtain ⟨n, hn, p, hp, hpv⟩ := hv
  obtain ⟨e, he, hsub⟩ := h.named event n hn
  exact ⟨e, he, p, hsub hp, hpv⟩

theorem Holding.offers {d : Draft} (h : Holding x sources ops d) {vs : List Pipe}
    (hv : ∀ v ∈ vs, d.Knows event v) : (d.bench sources ops).Offers vs := by
  intro v hm
  obtain ⟨e, he, p, hp, hpv⟩ := h.knows (hv v hm)
  exact ⟨p, d.outputs_subset_taps sources ops (List.mem_of_getElem? he) hp, hpv⟩

theorem leads_alloc {α : Type} {x : Alloc α} {Q : α → Draft → Prop}
    (h : ∀ d, P d → ∀ v a, x d.plan.arena = (.ok v, a) →
      Q v { d with plan := { d.plan with arena := a } }) : Leads P (alloc x) Q := by
  intro d hd v d' hx
  obtain ⟨hv, rfl⟩ := Prod.mk.inj hx
  exact h d hd v _ (Prod.ext hv rfl)

theorem leads_planning {x : Planning Handle} {Q : Draft → Prop}
    (h : ∀ d, P d → ∀ n p, x d.plan = (.ok n, p) → Q { d with plan := p }) :
    Leads P (planning x) fun _ => Q := by
  intro d hd n d' hx
  obtain ⟨hn, rfl⟩ := Prod.mk.inj hx
  exact h d hd n _ (Prod.ext hn rfl)

theorem leads_recipe (r : Recipe)
    (hP : ∀ d, P d → Holding x [] [] d ∧ ∀ v ∈ r.inputs, d.Knows event v)
    (hx : x → ∀ n ∈ r.planeBins?, n < Word.size 64) :
    Leads P (alloc r.make) (Waiting x event) := by
  refine leads_alloc fun d hd op a hop => ?_
  obtain ⟨hold, hknown⟩ := hP d hd
  have hmade := r.takes_make.result d.plan.arena op (by rw [hop])
  refine ⟨⟨hold.sound.makeOperator (hold.offers hknown) hop, hold.named, hold.fed, hold.count,
    hold.faithful, fun h => List.forall_mem_cons.2 ⟨?_, hold.exact h⟩⟩, ?_⟩
  · rw [Kind.Exact, hmade.planeBins_eq]
    exact hx h
  · rw [hmade.inputs_eq]
    exact hknown

theorem leads_sourceRecipe (r : SourceRecipe) (hf : r.decoder.Faithful) :
    Leads (Holding x [] []) (alloc r.make) fun s => Holding x [s] [] := by
  refine leads_alloc fun d hold s a hs => ?_
  have hmade := r.takes_make.result d.plan.arena s (by rw [hs])
  refine ⟨hold.sound.makeSource hs, hold.named, hold.fed, hold.count,
    List.forall_mem_cons.2 ⟨?_, hold.faithful⟩, hold.exact⟩
  rw [hmade.decoder_eq]
  exact hf

/-- An event that grows keeps what its names stand for. -/
theorem writes_set {d : Draft} {e e' : EventPlan} {i : Nat} {ps : List Pipe}
    (he : d.plan.events[event]? = some e) (hsub : e.outputs ⊆ e'.outputs) (h : d.Writes i ps) :
    Writes { d with plan := { d.plan with events := d.plan.events.set event e' } } i ps := by
  obtain ⟨f, hf, hps⟩ := h
  obtain ⟨hlt, -⟩ := List.getElem?_eq_some_iff.1 he
  by_cases hi : event = i
  · subst hi
    obtain rfl : e = f := Option.some.inj (he.symm.trans hf)
    exact ⟨e', List.getElem?_set_self hlt, List.Subset.trans hps hsub⟩
  · exact ⟨f, (List.getElem?_set_ne hi).trans hf, hps⟩

theorem leads_addSource (event : Nat) (s : Source) :
    Leads (Holding x [s] []) (planning (Plan.addSource event s)) fun _ d =>
      Holding x [] [] d ∧ d.Writes event s.outputs := by
  refine leads_planning fun d hold n p hp => ?_
  obtain ⟨e, e', he, ha, rfl⟩ := Plan.addSource_ok hp
  have hmem := List.mem_of_getElem? he
  have hlt := (List.getElem?_eq_some_iff.1 he).1
  have houtputs : e'.outputs = e.sources.flatMap Source.outputs ++ s.outputs ++
      e.operators.flatMap fun o => o.operator.outputs := by
    rw [EventPlan.addSource_eq_ok ha]
    simp [EventPlan.outputs]
  have hsub : e.outputs ⊆ e'.outputs := by
    rw [houtputs, List.append_assoc]
    exact List.append_subset.2 ⟨List.subset_append_left _ _, List.subset_append_of_subset_right _
      (List.subset_append_right _ _)⟩
  obtain ⟨d', hd⟩ : ∃ d' : Draft, d' =
    { d with plan := { d.plan with events := d.plan.events.set event e' } } := ⟨_, rfl⟩
  have hfirst : (d.bench [s] []).sources[0]? = some s := rfl
  have hw : d'.bench [] [] = { d.bench [s] [] with
      plan := { d.plan with events := d.plan.events.set event e' }
      sources := (d.bench [s] []).sources.eraseIdx 0 } := by
    rw [hd]
    rfl
  obtain ⟨hsources, hops⟩ := Workbench.addSource_perm hfirst he ha hw
  rw [← hd]
  refine ⟨⟨hold.sound.addSource hfirst he ha hw, fun i n hn => ?_, fun f hf => ?_, ?_,
    fun t ht => hold.faithful t (hsources.subset ht),
    fun h op ho => hold.exact h op (hops.subset ho)⟩, e', ?_, ?_⟩
  · rw [hd] at hn ⊢
    exact writes_set he hsub (hold.named i n hn)
  · rw [hd] at hf
    rcases List.mem_or_eq_of_mem_set hf with hf | rfl
    · exact hold.fed f hf
    · exact (hold.fed e hmem).addSource ha
  · rw [hd]
    exact List.length_set.trans hold.count
  · rw [hd]
    exact List.getElem?_set_self hlt
  · rw [houtputs]
    exact List.subset_append_of_subset_left _ (List.subset_append_right _ _)

theorem leads_addOperator (event : Nat) (op : Operator) :
    Leads (fun d => ∃ gate, Waiting x event { op with gate := gate } d)
      (planning (Plan.addOperator event op)) fun _ d =>
        Holding x [] [] d ∧ d.Writes event op.outputs := by
  refine leads_planning fun d ⟨gate, hold, hknown⟩ n p hp => ?_
  obtain ⟨e, e', he, ha, rfl⟩ := Plan.addOperator_ok hp
  have hmem := List.mem_of_getElem? he
  have hlt := (List.getElem?_eq_some_iff.1 he).1
  have houtputs : e'.outputs = e.outputs ++ op.outputs := by
    obtain ⟨rank, -, rfl⟩ := EventPlan.addOperator_eq_ok ha
    simp [EventPlan.outputs]
  have hin : ∀ v ∈ op.inputs, ∃ q ∈ e.outputs, v ∈ q.views := by
    intro v hv
    obtain ⟨f, hf, q, hq, hqv⟩ := hold.knows (hknown v hv)
    obtain rfl : e = f := Option.some.inj (he.symm.trans hf)
    exact ⟨q, hq, hqv⟩
  obtain ⟨made, hmade⟩ : ∃ made : Operator, made = { op with gate := gate } := ⟨_, rfl⟩
  obtain ⟨d', hd⟩ : ∃ d' : Draft, d' =
    { d with plan := { d.plan with events := d.plan.events.set event e' } } := ⟨_, rfl⟩
  rw [← hmade] at hold
  have hfirst : (d.bench [] [made]).operators[0]? = some made := rfl
  have hgated : e.addOperator { made with gate := op.gate } = .ok e' := by
    rw [hmade]
    exact ha
  have hw : d'.bench [] [] = { d.bench [] [made] with
      plan := { d.plan with events := d.plan.events.set event e' }
      operators := (d.bench [] [made]).operators.eraseIdx 0 } := by
    rw [hd]
    rfl
  obtain ⟨hsources, rest, hold', hnew⟩ := Workbench.addOperator_perm hfirst he hgated hw
  rw [← hd]
  refine ⟨⟨hold.sound.addOperator hfirst he hgated hw, fun i n hn => ?_, fun f hf => ?_, ?_,
    fun t ht => hold.faithful t (hsources.subset ht), fun h o ho => ?_⟩, e', ?_, ?_⟩
  · rw [hd] at hn ⊢
    exact writes_set he (houtputs ▸ List.subset_append_left _ _) (hold.named i n hn)
  · rw [hd] at hf
    rcases List.mem_or_eq_of_mem_set hf with hf | rfl
    · exact hold.fed f hf
    · exact (hold.fed e hmem).addOperator ha hin
  · rw [hd]
    exact List.length_set.trans hold.count
  · rcases List.mem_cons.1 (hnew.subset ho) with rfl | ho
    · have hx := hold.exact h made (hold'.symm.subset List.mem_cons_self)
      simpa [Kind.Exact, Operator.seated] using hx
    · exact hold.exact h o (hold'.symm.subset (List.mem_cons_of_mem made ho))
  · rw [hd]
    exact List.getElem?_set_self hlt
  · rw [houtputs]
    exact List.subset_append_right _ _

theorem mem_namesOf_addName {d : Draft} {i : Nat} {n m : Named}
    (h : m ∈ namesOf { d with names := d.names.modify event (n :: ·) } i) :
    m ∈ d.namesOf i ∨ event = i ∧ m = n := by
  simp only [namesOf, List.getD_eq_getElem?_getD, List.getElem?_modify] at h ⊢
  cases hi : d.names[i]? with
  | none =>
    rw [hi] at h
    cases h
  | some ns =>
    rw [hi] at h
    simp only [Option.getD_some] at h ⊢
    split at h
    · next he => exact (List.mem_cons.1 h).elim (fun h => Or.inr ⟨he, h⟩) Or.inl
    · exact Or.inl h

theorem leads_addName (event : Nat) (n : Named) :
    Leads (fun d => Holding x [] [] d ∧ d.Writes event n.outputs) (addName event n)
      fun _ => Holding x [] [] := by
  refine Leads.modify fun d ⟨hold, hn⟩ => ⟨hold.sound, fun i m hm => ?_, hold.fed, hold.count,
    hold.faithful, hold.exact⟩
  rcases mem_namesOf_addName hm with hm | ⟨rfl, rfl⟩
  · exact hold.named i m hm
  · exact hn

theorem leads_makeOperator (event : Nat) {o : OperatorSpec} (hx : x → o.Exact) :
    Leads (Holding x [] []) (makeOperator event o) (Waiting x event) := by
  have hone : ∀ (input : String) (r : Pipe → Recipe), (∀ p, (r p).inputs = [p]) →
      (∀ p, (r p).planeBins? = none) →
      Leads (Holding x [] []) (resolve event input >>= fun p => alloc (r p).make) (Waiting x event) := by
    intro input r hi hn
    refine .read (reads_resolve event input) fun p => leads_recipe (r p) (fun d hd => ?_) ?_
    · rw [hi]
      exact ⟨hd.1, List.forall_mem_singleton.2 hd.2⟩
    · simp [hn]
  have htwo : ∀ (a b : String) (r : Pipe → Pipe → Recipe), (∀ p q, (r p q).inputs = [p, q]) →
      (∀ p q, x → ∀ n ∈ (r p q).planeBins?, n < Word.size 64) →
      Leads (Holding x [] []) (resolve event a >>= fun p => resolve event b >>= fun q =>
        alloc (r p q).make) (Waiting x event) := by
    intro a b r hi hn
    refine .read (reads_resolve event a) fun p => .read (reads_resolve event b) fun q =>
      leads_recipe (r p q) (fun d hd => ?_) (hn p q)
    rw [hi]
    exact ⟨hd.1.1, List.forall_mem_cons.2 ⟨hd.1.2, List.forall_mem_singleton.2 hd.2⟩⟩
  cases o with
  | calibration input unitMin unitMax perElement =>
    refine .read (reads_resolve event input) fun p => ?_
    have hmade : ∀ units, Leads (fun d => Holding x [] [] d ∧ d.Knows event p)
        (alloc (Recipe.calibration p units).make) (Waiting x event) := fun units =>
      leads_recipe _ (fun d hd => ⟨hd.1, List.forall_mem_singleton.2 hd.2⟩) nofun
    split
    · exact hmade _
    · exact hmade perElement
  | keepPrevious input keepValid =>
    exact hone input (fun p => .keepPrevious p keepValid) (fun _ => rfl) fun _ => rfl
  | difference a b => exact htwo a b .difference (fun _ _ => rfl) fun _ _ => nofun
  | arrayMap inputs mappings =>
    refine .read (Reads.mapM (reads_resolve event) inputs) fun ps => ?_
    exact leads_recipe (.arrayMap ps mappings) (fun d hd => hd) nofun
  | equation a b e outputMin outputMax =>
    exact htwo a b (fun p q => .equation p q e outputMin outputMax) (fun _ _ => rfl)
      fun _ _ => nofun
  | aggregate input r min max =>
    exact hone input (fun p => .aggregate p r ⟨min.getD Value.unset, max.getD Value.unset⟩)
      (fun _ => rfl) fun _ => rfl
  | rangeFilter input min max inverted =>
    exact hone input (fun p => .rangeFilter p ⟨min, max⟩ inverted) (fun _ => rfl) fun _ => rfl
  | rectangleFilter x y xRange yRange junction =>
    exact htwo x y (fun p q => .rectangleFilter p q (windowOf xRange) (windowOf yRange) junction)
      (fun _ _ => rfl) fun _ _ => nofun
  | conditionFilter data condition inverted =>
    exact htwo data condition (fun p q => .conditionFilter p q inverted) (fun _ _ => rfl)
      fun _ _ => nofun
  | scalerOverflow input => exact hone input .scalerOverflow (fun _ => rfl) fun _ => rfl
  | expression inputs beginScript stepScript =>
    refine .read (Reads.mapM (reads_resolveInput event) inputs) fun ps => ?_
    rw [Operator.expression]
    split
    · exact leads_alloc fun d _ v a hv => by cases hv
    · exact leads_alloc fun d _ v a hv => by cases hv
    · next first body _ _ =>
      exact leads_recipe (.expression ps (Operator.beginProgram first) (Expression.programOf body))
        (fun d hd => ⟨hd.1, List.forall_mem_map.2 hd.2⟩) nofun
  | histograms input bins range =>
    exact hone input (fun p => .histograms p bins (range.map axisOf)) (fun _ => rfl) fun _ => rfl
  | planeHistogram x y xBins yBins xRange yRange =>
    exact htwo x y (fun p q => .planeHistogram p q xBins yBins (xRange.map axisOf)
      (yRange.map axisOf)) (fun _ _ => rfl) fun _ _ => hx
  | rateMonitor input mode scale offset history =>
    exact hone input (fun p => .rateMonitor p
      (List.replicate p.length (Sampler.new scale offset history)) mode) (fun _ => rfl) fun _ => rfl
  | exportSink inputs condition path format level =>
    refine .read (Reads.mapM (reads_resolve event) inputs) fun ps => ?_
    refine .read (Reads.optionMapM (reads_resolve event) condition) fun gate => ?_
    refine leads_recipe (.exportSink ps gate path format level) (fun d hd => ⟨hd.1.1, ?_⟩) nofun
    intro v hv
    rcases List.mem_append.1 hv with hv | hv
    · exact hd.1.2 v hv
    · exact hd.2 v (Option.mem_toList.1 hv)
  | intervalCondition input intervals =>
    exact hone input (fun p => .intervalCondition p (intervalsFor p.length intervals))
      (fun _ => rfl) fun _ => rfl
  | rectangleCondition x y xRange yRange =>
    exact htwo x y (fun p q => .rectangleCondition p q (windowOf xRange) (windowOf yRange))
      (fun _ _ => rfl) fun _ _ => nofun
  | polygonCondition x y polygon =>
    exact htwo x y (fun p q => .polygonCondition p q polygon) (fun _ _ => rfl) fun _ _ => nofun

theorem reads_claim (event : Nat) (name : String) : Reads (claim event name) fun _ _ => True := by
  have hfree : Reads (do if ((← get).find? event name).isSome then fail (.duplicateName name))
      fun _ _ => True := by
    refine Reads.get.bind fun d => ?_
    split
    · exact .fail
    · exact .pure fun _ _ => trivial
  rw [claim]
  split
  · exact Reads.fail.bind (R := fun _ _ => True) fun _ => hfree.weaken fun _ _ _ _ => trivial
  · exact hfree

theorem leads_seedFor (s : SourceConfig) :
    Leads (Holding x [] []) (seedFor s) fun _ => Holding x [] [] := by
  rw [seedFor]
  split
  · exact .pure fun _ => id
  · refine .read .get fun d => ?_
    refine Leads.bind (Q := fun _ => Holding x [] []) (Leads.modify (f := fun _ =>
      { d with nextSeed := d.nextSeed + 1 }) fun d' hd => ?_) fun _ => .pure fun _ => id
    obtain ⟨hold, rfl⟩ := hd
    exact ⟨hold.sound, hold.named, hold.fed, hold.count, hold.faithful, hold.exact⟩

theorem leads_makeSource (s : SourceConfig) (o : SourceOptions) :
    Leads (Holding x [] []) (makeSource s o) fun src => Holding x [src] [] := by
  rw [makeSource]
  split
  · next patterns required _ =>
    refine .read (Reads.ofExcept _) fun g => .assuming fun hg => ?_
    exact leads_sourceRecipe (.group g required o)
      (Group.faithful_parse (exists_of_mapError_eq_ok hg))
  · next patterns wordCount wide reversed repetitions _ =>
    refine .read (Reads.ofExcept _) fun p => .assuming fun hp => ?_
    exact leads_sourceRecipe (.packed p repetitions s.lowRepetition o)
      (Packing.faithful_make (exists_of_mapError_eq_ok hp))
  · next pattern shape maxHits _ =>
    refine .read (Reads.ofExcept _) fun p => .assuming fun _ => ?_
    exact leads_sourceRecipe (.word p shape maxHits o) ⟨rfl, rfl⟩

theorem leads_configSource (event : Nat) (s : SourceConfig) :
    Leads (Holding x [] []) (addSource event s) fun _ => Holding x [] [] := by
  refine .read (reads_claim event s.name) fun _ => ?_
  refine Leads.bind ((leads_seedFor s).weaken (fun _ hd => hd.1) fun _ _ => id) fun seed => ?_
  refine (leads_makeSource s _).bind fun src => (leads_addSource event src).bind fun h => ?_
  refine (leads_addName event ⟨s.name, src.outputs, none⟩).bind fun _ => ?_
  exact Leads.modify fun d hold => ⟨hold.sound, hold.named, hold.fed, hold.count, hold.faithful, hold.exact⟩

theorem reads_gated (event : Nat) (gate : Option String) (op : Operator) :
    Reads (gated event gate op) fun _ op' => ∃ g, op = { op' with gate := g } := by
  cases gate with
  | none => exact .pure fun _ => ⟨op.gate, rfl⟩
  | some g =>
    have hbit : Reads (resolveGate event g) fun _ _ => True :=
      (Reads.ofExcept _).bind fun r => Reads.get.bind fun d =>
        (Reads.ofExcept _).weaken fun _ _ _ _ _ => trivial
    exact hbit.bind fun bit => .pure fun _ _ => ⟨op.gate, rfl⟩

theorem leads_configOperator (event : Nat) {o : OperatorConfig} (hx : x → o.spec.Exact) :
    Leads (Holding x [] []) (addOperator event o) fun _ => Holding x [] [] := by
  refine .read (reads_claim event o.name) fun _ => ?_
  refine Leads.bind ((leads_makeOperator event hx).weaken (fun _ hd => hd.1) fun _ _ => id)
    fun op => ?_
  refine .read (reads_gated event o.gate op) fun gop => ?_
  refine Leads.bind ((leads_addOperator (x := x) event gop).weaken (fun d hd => ?_) fun _ _ => id)
    fun h => ?_
  · obtain ⟨hwait, gate, rfl⟩ := hd
    exact ⟨gate, hwait⟩
  · refine .read .get fun d => ?_
    refine Leads.bind ((leads_addName event _).weaken (fun _ hd => hd.1) fun _ _ => id)
      fun _ => ?_
    exact Leads.modify fun d hold => ⟨hold.sound, hold.named, hold.fed, hold.count, hold.faithful, hold.exact⟩

theorem leads_pass (event : Nat) {os : List OperatorConfig} (hx : ∀ o ∈ os, x → o.spec.Exact) :
    Leads (Holding x [] []) (pass event os) fun ws d => Holding x [] [] d ∧ ws ⊆ os := by
  induction os with
  | nil => exact .pure fun d hold => ⟨hold, List.Subset.refl []⟩
  | cons o os ih =>
    obtain ⟨ho, hos⟩ := List.forall_mem_cons.1 hx
    rw [pass]
    refine .read .get fun d => ?_
    split
    · refine Leads.bind (((leads_configOperator event ho).inContext).weaken (fun _ hd => hd.1)
        fun _ _ => id) fun _ => ?_
      exact (ih hos).weaken (fun _ => id) fun ws d hd =>
        ⟨hd.1, List.subset_cons_of_subset o hd.2⟩
    · refine Leads.bind ((ih hos).weaken (fun _ hd => hd.1) fun _ _ => id) fun ws => ?_
      exact .pure fun d hd => ⟨hd.1, List.cons_subset_cons o hd.2⟩

theorem leads_unresolved (event : Nat) (o : OperatorConfig) {Q : Unit → Draft → Prop} :
    Leads P (addOperators.unresolved event o) Q := by
  refine .read .get fun d => ?_
  exact Leads.fail.inContext

theorem leads_addOperators (event fuel : Nat) {os : List OperatorConfig}
    (hx : ∀ o ∈ os, x → o.spec.Exact) :
    Leads (Holding x [] []) (addOperators event fuel os) fun _ => Holding x [] [] := by
  induction fuel generalizing os with
  | zero =>
    cases os with
    | nil => exact .pure fun _ => id
    | cons o os => exact leads_unresolved event o
  | succ fuel ih =>
    cases os with
    | nil => exact .pure fun _ => id
    | cons o os =>
      rw [addOperators]
      refine (leads_pass event hx).bind fun ws => .assuming fun hsub => ?_
      cases ws with
      | nil => exact .pure fun _ => id
      | cons o' ws =>
        dsimp only
        split
        · exact leads_unresolved event o'
        · exact ih fun k hk => hx k (hsub hk)

theorem leads_addSources (event : Nat) (ss : List SourceConfig) :
    Leads (Holding x [] []) (addSources event ss) fun _ => Holding x [] [] := by
  induction ss with
  | nil => exact .pure fun _ => id
  | cons s ss ih => exact (leads_configSource event s).inContext.bind fun _ => ih

theorem leads_addEventSources (es : List EventConfig) :
    Leads (Holding x [] []) (addEventSources es) fun _ => Holding x [] [] := by
  induction es with
  | nil => exact .pure fun _ => id
  | cons e es ih =>
    have hrest := (leads_addSources e.index e.sources).bind fun _ => ih
    rw [addEventSources]
    split
    · exact Leads.fail.bind (Q := fun _ => Holding x [] []) fun _ => hrest
    · exact hrest

theorem leads_addEventOperators {es : List EventConfig}
    (hx : ∀ e ∈ es, ∀ o ∈ e.operators, x → o.spec.Exact) :
    Leads (Holding x [] []) (addEventOperators es) fun _ => Holding x [] [] := by
  induction es with
  | nil => exact .pure fun _ => id
  | cons e es ih =>
    obtain ⟨he, hes⟩ := List.forall_mem_cons.1 hx
    exact (leads_addOperators e.index e.operators.length he).bind fun _ => ih hes

theorem holding_new (c : Config) (seed : UInt64) : Holding x [] [] (new c seed) := by
  have hs : ((new c seed).bench [] []).allSources = [] := by
    simp [Workbench.allSources, bench, new, Plan.new, EventPlan.empty]
  have ho : ((new c seed).bench [] []).allOperators = [] := by
    simp [Workbench.allOperators, bench, new, Plan.new, EventPlan.empty]
  refine ⟨Workbench.sound_new c.arenaCapacity c.strategy, fun event n hn => ?_, fun e he => ?_,
    List.length_replicate, ?_, ?_⟩
  · have hnone : (new c seed).namesOf event = [] := by
      rw [namesOf, List.getD_eq_getElem?_getD]
      change ((List.replicate Plan.maxEvents [])[event]?).getD [] = []
      rw [List.getElem?_replicate]
      split <;> rfl
    rw [hnone] at hn
    cases hn
  · rw [List.eq_of_mem_replicate he]
    exact EventPlan.fed_empty
  · simp [hs]
  · simp [ho]

end Draft

variable {c : Config} {seed : UInt64} {volume : Volume} {a : Analysis}

/-- The plan of a built analysis is a sound workbench without anything that waits. -/
theorem Config.holding_build (h : c.build seed volume = .ok a) :
    ∃ d : Draft, a.graph = d.plan.build volume ∧ Draft.Holding c.Exact [] [] d := by
  rw [build] at h
  split at h
  · next d hd =>
    obtain rfl := Except.ok.inj h
    have hexact : ∀ e ∈ c.events, ∀ o ∈ e.operators, c.Exact → o.spec.Exact :=
      fun e he o ho hx => hx e he o ho
    have hlead := (Draft.leads_addEventSources c.events).bind fun _ =>
      Draft.leads_addEventOperators hexact
    exact ⟨d, rfl, hlead _ (Draft.holding_new c seed) _ d hd⟩
  · cases h

/-- A test of the built graph, for configurations with their nodes in running order. -/
def Config.passes (c : Config) (seed : UInt64) (volume : Volume) (test : Graph → Bool) : Bool :=
  match (Draft.addEvents c).run (Draft.new c seed) with
  | (.ok _, d) => decide d.plan.InTurn && test (d.plan.buildInTurn volume)
  | (.error _, _) => false

theorem Config.exists_of_passes (c : Config) (seed : UInt64) (volume : Volume)
    (test : Graph → Bool) (h : c.passes seed volume test = true) :
    ∃ a, c.build seed volume = .ok a ∧ test a.graph = true := by
  rw [passes] at h
  split at h
  · next d hd =>
    rw [Bool.and_eq_true, decide_eq_true_eq] at h
    refine ⟨⟨d.plan.build volume, d.sources, d.operators⟩, by rw [build, hd], ?_⟩
    rw [Plan.build_of_inTurn h.1]
    exact h.2
  · cases h

/-- One module with four addresses, an element that is picked out of it, and a filter by it. -/
def Config.pickedElement : Config where
  arenaCapacity := 4096
  strategy := .batched
  seed := some 1
  events := [⟨0, [⟨"raw", 0, none, true, false, .word "AADD" .perHit 1⟩],
    [⟨"passed", none, .conditionFilter "raw" "picked" false⟩,
      ⟨"picked", none, .arrayMap ["raw"] [⟨0, 3⟩]⟩]⟩]

end Readout
