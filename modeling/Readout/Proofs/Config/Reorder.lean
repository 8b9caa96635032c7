import Readout.Proofs.Config.Rebuild

/-!
# Configurations with their operators in another order

Drafts match when each of them has what the other one has. Once the sources are there, the drafts of
two configurations that differ in the order of their operators are the same; from then on the events
keep them matched, one after the other. So if one of the two analyses can be built, then so can the
other one, unless its arena is full.
-/
namespace Readout

/-- The same event with its operators listed in another order. -/
structure EventConfig.Reordered (c c' : EventConfig) : Prop where
  index : c.index = c'.index
  sources : c.sources = c'.sources
  operators : c.operators.Perm c'.operators

/-- The same configuration with the operators of each event listed in another order. -/
structure Config.Reordered (c c' : Config) : Prop where
  capacity : c.arenaCapacity = c'.arenaCapacity
  strategy : c.strategy = c'.strategy
  seed : c.seed = c'.seed
  events : List.Forall₂ EventConfig.Reordered c.events c'.events

def Config.GatesFit (c : Config) : Prop := ∀ e ∈ c.events, ∀ o ∈ e.operators, o.GateFits

instance (c : Config) : Decidable c.GatesFit :=
  inferInstanceAs (Decidable (∀ e ∈ c.events, ∀ o ∈ e.operators, o.GateFits))

namespace Draft

open Drafting

variable {T : Place → Ties} {d e f : Draft} {event : Nat}

/-- Drafts of which each has what the other one has. -/
structure Matched (T : Place → Ties) (d e : Draft) : Prop where
  mirrors : Mirrors T d e
  left : d.Steady
  right : e.Steady
  names : ∀ i name, (d.find? i name).isSome = true ↔ (e.find? i name).isSome = true
  tags : ∀ x, (d.operators.lookup x).isSome = true ↔ (e.operators.lookup x).isSome = true
  count : ∀ i, d.level (.node i) = e.level (.node i)

theorem Matched.addOperators (h : Matched T d e) {ws os : List OperatorConfig}
    (hperm : ws.Perm os) (hfits : ∀ o ∈ os, o.GateFits) {n : Nat}
    (he : addOperators event n os e = (.ok (), f)) :
    (∃ d' T', addOperators event ws.length ws d = (.ok (), d') ∧ Matched T' d' f) ∨
      ∃ c d', addOperators event ws.length ws d = (.error c, d') ∧ c.OutOfMemory := by
  obtain ⟨ps, hps, hpos⟩ := AddsAll.of_addOperators he
  obtain ⟨D, hD, rfl, rfl⟩ := hps.history
  have hall : ∀ o, o ∈ ps ↔ o ∈ ws := fun o => (hpos.trans hperm.symm).mem_iff
  have hlive : Live event ps D T d :=
    ⟨h.mirrors.grows (hD.grows h.right (Nat.zero_le _)), h.left,
      fun name => (h.names event name).2, fun κ i j hij => Or.inl (h.mirrors.right κ i j hij)⟩
  have hfree : ∀ o ∈ ws, o ∈ ps ∧ d.find? event o.name = none := by
    intro o ho
    refine ⟨(hall o).2 ho, Option.not_isSome_iff_eq_none.1 fun hsome => ?_⟩
    obtain ⟨k, hk⟩ := List.getElem?_of_mem ((hall o).2 ho)
    obtain ⟨r, op, g, hadds⟩ := (hD.steady h.right k).adds (hD.adds k o hk)
    obtain ⟨m, hm⟩ := Option.isSome_iff_exists.1 ((h.names event o.name).1 hsome)
    have hfound := (hD.grows h.right (Nat.zero_le k)).find event o.name m hm
    rw [hadds.free] at hfound
    cases hfound
  have hnames : ws.Pairwise fun o p => p.name ≠ o.name := by
    refine List.Pairwise.perm ?_ (hpos.trans hperm.symm) fun hne => hne.symm
    refine List.pairwise_iff_getElem.2 fun i j hi hj hij hname => ?_
    have heq := hD.eq_of_name h.right (List.getElem?_eq_getElem hj) (List.getElem?_eq_getElem hi)
      hname
    omega
  have hps' : ∀ o ∈ ps, o.GateFits := fun o ho => hfits o (hpos.mem_iff.1 ho)
  refine (hlive.addOperators hD h.right hps' hfree (fun o ho => Or.inl ((hall o).1 ho)) hnames
    (Nat.le_refl _)).imp_left ?_
  rintro ⟨d', T', hok, hlive'⟩
  obtain ⟨qs, hqs, hqperm⟩ := AddsAll.of_addOperators hok
  have hsame : ∀ o, o ∈ qs ↔ o ∈ ps := fun o => hqperm.mem_iff.trans (hall o).symm
  refine ⟨d', T', hok, hlive'.mirrors, hlive'.steady, hD.steady h.right _, fun i name => ?_,
    fun x => ?_, fun i => ?_⟩
  · rw [hqs.isSome_find? h.left, hps.isSome_find? h.right, h.names]
    simp only [hsame]
  · rw [hqs.isSome_lookup h.left, hps.isSome_lookup h.right, h.tags]
    simp only [hsame]
  · rw [hqs.level_node h.left, hps.level_node h.right, h.count,
      (hqperm.trans (hperm.trans hpos.symm)).length_eq]

theorem addEventOperators_cons (c : EventConfig) (cs : List EventConfig) (d : Draft) :
    addEventOperators (c :: cs) d =
      match Draft.addOperators c.index c.operators.length c.operators d with
      | (.error x, e) => (.error x, e)
      | (.ok _, e) => addEventOperators cs e := by
  rw [addEventOperators, bind_apply]
  rcases Draft.addOperators c.index c.operators.length c.operators d with ⟨x | u, e⟩ <;> rfl

theorem Matched.addEventOperators (h : Matched T d e) {cs cs' : List EventConfig}
    (hcs : List.Forall₂ EventConfig.Reordered cs cs')
    (hfits : ∀ c ∈ cs', ∀ o ∈ c.operators, o.GateFits)
    (he : addEventOperators cs' e = (.ok (), f)) :
    (∃ d' T', addEventOperators cs d = (.ok (), d') ∧ Matched T' d' f) ∨
      ∃ c d', addEventOperators cs d = (.error c, d') ∧ c.OutOfMemory := by
  induction hcs generalizing d e T with
  | nil =>
    obtain ⟨-, rfl⟩ := Prod.mk.inj he
    exact Or.inl ⟨d, T, rfl, h⟩
  | @cons c c' cs cs' hc _ ih =>
    obtain ⟨hfit, hfits⟩ := List.forall_mem_cons.1 hfits
    rw [addEventOperators_cons] at he ⊢
    rcases ha : Draft.addOperators c'.index c'.operators.length c'.operators e with ⟨x | u, e'⟩
    · rw [ha] at he
      cases he
    rw [ha] at he
    rw [hc.index]
    rcases h.addOperators hc.operators hfit ha with ⟨d', T', hok, hmatched⟩ | ⟨x, d', hok, hx⟩
    · rw [hok]
      exact ih hmatched hfits he
    · rw [hok]
      exact Or.inr ⟨x, d', rfl, hx⟩

/-- Where the operators stand does not matter to the sources. -/
theorem addEventSources_congr {cs cs' : List EventConfig}
    (h : List.Forall₂ EventConfig.Reordered cs cs') : addEventSources cs = addEventSources cs' := by
  induction h with
  | nil => rfl
  | cons hc _ ih => rw [addEventSources, addEventSources, hc.index, hc.sources, ih]

/-- A draft without operators. -/
structure Bare (d : Draft) : Prop where
  small : d.plan.arena.store.slots < Word.size 32
  names : d.names.length = Plan.maxEvents
  tags : d.operators = []
  nodes : ∀ e ∈ d.plan.events, e.operators = []
  bits : ∀ i, ∀ n ∈ d.namesOf i, n.bits = none

theorem Bare.onward (h : d.Bare) {a : Arena} (ha : d.plan.arena.Onward a) :
    Bare { d with plan := { d.plan with arena := a } } :=
  ⟨ha.slots_eq ▸ h.small, h.names, h.tags, h.nodes, h.bits⟩

theorem leads_bare_make (r : SourceRecipe) : Leads Bare (alloc r.make) fun _ => Bare :=
  leads_alloc fun d hd s a hs => hd.onward (by
    have honward := r.takes_make.onward d.plan.arena
    rwa [hs] at honward)

theorem leads_bare_makeSource (s : SourceConfig) (o : SourceOptions) :
    Leads Bare (makeSource s o) fun _ => Bare := by
  rw [makeSource]
  split
  · exact .read (Reads.ofExcept _) fun g =>
      (leads_bare_make (.group g _ o)).weaken (fun _ => And.left) fun _ _ => id
  · exact .read (Reads.ofExcept _) fun p =>
      (leads_bare_make (.packed p _ s.lowRepetition o)).weaken (fun _ => And.left) fun _ _ => id
  · exact .read (Reads.ofExcept _) fun p =>
      (leads_bare_make (.word p _ _ o)).weaken (fun _ => And.left) fun _ _ => id

theorem leads_bare_addSource (event : Nat) (s : SourceConfig) :
    Leads Bare (addSource event s) fun _ => Bare := by
  have hseed : Leads Bare (seedFor s) fun _ => Bare := by
    rw [seedFor]
    split
    · exact .pure fun _ => id
    · refine .read .get fun d => ?_
      refine Leads.bind (Q := fun _ => Bare) (Leads.modify (f := fun _ =>
        { d with nextSeed := d.nextSeed + 1 }) fun d' hd => ?_) fun _ => .pure fun _ => id
      obtain ⟨hd, rfl⟩ := hd
      exact ⟨hd.small, hd.names, hd.tags, hd.nodes, hd.bits⟩
  have hplan : ∀ src, Leads Bare (planning (Plan.addSource event src)) fun _ => Bare := fun src =>
    leads_planning fun d hd n p hp => by
      obtain ⟨e, e', he, ha, rfl⟩ := Plan.addSource_ok hp
      refine ⟨hd.small, hd.names, hd.tags, fun f hf => ?_, hd.bits⟩
      rcases List.mem_or_eq_of_mem_set hf with hf | rfl
      · exact hd.nodes f hf
      · rw [EventPlan.addSource_eq_ok ha]
        exact hd.nodes e (List.mem_of_getElem? he)
  refine .read (reads_claim event s.name) fun _ => ?_
  refine (hseed.weaken (fun _ => And.left) fun _ _ => id).bind fun seed => ?_
  refine (leads_bare_makeSource s _).bind fun src => (hplan src).bind fun h => ?_
  refine Leads.bind (Q := fun _ => Bare) (Leads.modify fun d hd => ?_) fun _ =>
    Leads.modify fun d hd => ⟨hd.small, hd.names, hd.tags, hd.nodes, hd.bits⟩
  refine ⟨hd.small, (List.length_modify ..).trans hd.names, hd.tags, hd.nodes, fun i n hn => ?_⟩
  rcases mem_namesOf_addName hn with hn | ⟨-, rfl⟩
  · exact hd.bits i n hn
  · rfl

theorem leads_bare_addEventSources (cs : List EventConfig) :
    Leads Bare (addEventSources cs) fun _ => Bare := by
  have hsources : ∀ (event : Nat) (ss : List SourceConfig),
      Leads Bare (addSources event ss) fun _ => Bare := by
    intro event ss
    induction ss with
    | nil => exact .pure fun _ => id
    | cons s ss ih => exact (leads_bare_addSource event s).inContext.bind fun _ => ih
  induction cs with
  | nil => exact .pure fun _ => id
  | cons c cs ih =>
    have hrest := (hsources c.index c.sources).bind fun _ => ih
    rw [addEventSources]
    split
    · exact Leads.fail.bind (Q := fun _ => Bare) fun _ => hrest
    · exact hrest

theorem bare_new (c : Config) (seed : UInt64) : Bare (new c seed) := by
  refine ⟨?_, List.length_replicate, rfl, fun e he => ?_, fun i n hn => ?_⟩
  · have hslots : (new c seed).plan.arena.store.slots =
        min c.arenaCapacity Arena.maxCapacity / Arena.valueSize := rfl
    have hmax : Arena.maxCapacity = (Word.size 32 - 1) * Arena.valueSize := rfl
    have hpos : 0 < Word.size 32 := by decide
    rw [hslots, Arena.valueSize]
    simp only [Arena.valueSize] at hmax
    omega
  · rw [List.eq_of_mem_replicate he]
    rfl
  · obtain ⟨ns, hns, hn⟩ : ∃ ns ∈ (new c seed).names, n ∈ ns := by
      rw [namesOf, List.getD_eq_getElem?_getD] at hn
      cases hi : (new c seed).names[i]? with
      | none =>
        rw [hi] at hn
        cases hn
      | some ns =>
        rw [hi] at hn
        exact ⟨ns, List.mem_of_getElem? hi, hn⟩
    rw [List.eq_of_mem_replicate hns] at hn
    cases hn

/-- A draft without operators matches itself. -/
theorem Bare.matched (h : d.Bare) (hold : Holding False [] [] d) :
    Matched (fun κ => Ties.below (d.level κ)) d d := by
  have hnodes : ∀ i, (d.eventAt i).operators = [] := by
    intro i
    rcases d.eventAt_mem_or_empty i with he | he
    · exact h.nodes _ (List.mem_of_getElem? he)
    · rw [he]
      rfl
  have hsteady : d.Steady := by
    refine ⟨hold, h.small, h.names, fun i => ?_, fun x t ht => ?_, fun i name n hn span hspan => ?_⟩
    · rw [hnodes]
      exact Nat.zero_le _
    · rw [h.tags] at ht
      cases ht
    · rw [h.bits i n (mem_namesOf_of_find? hn)] at hspan
      cases hspan
  refine ⟨⟨fun κ => Ties.unique_below _, fun κ i j hij => hij.2, fun κ i j hij => hij.1 ▸ hij.2,
    rfl, fun i j hij => congrArg _ hij.1, fun i name n hn => ⟨n, hn, ?_, ?_⟩, fun x t ht => ?_,
    fun i j p hp => ?_, fun i => rfl, fun i s hs p hp j hj => ⟨rfl, ?_⟩⟩, hsteady, hsteady,
    fun _ _ => Iff.rfl, fun _ => Iff.rfl, fun _ => rfl⟩
  · refine List.forall₂_same.2 fun p hp => Pipe.tied_below ?_
    have hknows : d.Knows i p := ⟨n, mem_namesOf_of_find? hn, p, hp, List.mem_cons_self⟩
    exact hold.stop_le hknows
  · rw [h.bits i n (mem_namesOf_of_find? hn)]
    exact .none
  · rw [h.tags] at ht
    cases ht
  · rw [hnodes] at hp
    cases hp
  · rcases d.eventAt_mem_or_empty i with he | he
    · have hmem : s ∈ (d.bench [] []).allSources := List.mem_append_right _
        (List.mem_flatMap.2 ⟨_, List.mem_of_getElem? he, hs⟩)
      have hstop := hold.stop_le_of_mem_owned (List.mem_append_left _
        (List.mem_append_right _ (List.mem_flatMap.2 ⟨s, hmem, hp⟩)))
      exact Nat.lt_of_lt_of_le hj.2 hstop
    · rw [he] at hs
      cases hs

theorem addEvents_apply (c : Config) (d : Draft) :
    addEvents c d =
      match addEventSources c.events d with
      | (.error x, e) => (.error x, e)
      | (.ok _, e) => addEventOperators c.events e := by
  rw [addEvents, bind_apply]
  rcases addEventSources c.events d with ⟨x | u, e⟩ <;> rfl

/-- Once the sources are there, the draft matches itself. -/
theorem exists_matched_sources {c : Config} {seed : UInt64}
    (h : addEvents c (new c seed) = (.ok (), e)) :
    ∃ d, addEventSources c.events (new c seed) = (.ok (), d) ∧
      Matched (fun κ => Ties.below (d.level κ)) d d ∧
      addEventOperators c.events d = (.ok (), e) := by
  rw [addEvents_apply] at h
  rcases hs : addEventSources c.events (new c seed) with ⟨x | u, d⟩
  · rw [hs] at h
    cases h
  rw [hs] at h
  have hbare : d.Bare := leads_bare_addEventSources c.events _ (bare_new c seed) _ d hs
  have hold : Holding False [] [] d :=
    leads_addEventSources c.events _ (holding_new c seed) _ d hs
  exact ⟨d, rfl, hbare.matched hold, h⟩

/-- Every operator of the list gets its handle. -/
theorem Steady.isSome_lookup (hd : d.Steady) {cs : List EventConfig}
    (h : addEventOperators cs d = (.ok (), e)) :
    (∀ x, (d.operators.lookup x).isSome = true → (e.operators.lookup x).isSome = true) ∧
      ∀ c ∈ cs, ∀ o ∈ c.operators, (e.operators.lookup ⟨c.index, o.name⟩).isSome = true := by
  induction cs generalizing d with
  | nil =>
    obtain ⟨-, rfl⟩ := Prod.mk.inj h
    exact ⟨fun _ => id, nofun⟩
  | cons c cs ih =>
    rw [addEventOperators_cons] at h
    rcases ha : Draft.addOperators c.index c.operators.length c.operators d with ⟨x | u, d'⟩
    · rw [ha] at h
      cases h
    rw [ha] at h
    obtain ⟨ps, hps, hperm⟩ := AddsAll.of_addOperators ha
    have hlookup := hps.isSome_lookup hd
    obtain ⟨hkeep, hrest⟩ := ih (hps.steady hd) h
    refine ⟨fun x hx => hkeep x ((hlookup x).2 (Or.inl hx)), List.forall_mem_cons.2
      ⟨fun o ho => hkeep _ ((hlookup _).2 (Or.inr ⟨o, hperm.mem_iff.2 ho, rfl⟩)), hrest⟩⟩

end Draft

variable {c c' : Config}

theorem Config.Reordered.refl (c : Config) : c.Reordered c :=
  ⟨rfl, rfl, rfl, List.forall₂_same.2 fun _ _ => ⟨rfl, rfl, .refl _⟩⟩

theorem Config.Reordered.symm (h : c.Reordered c') : c'.Reordered c := by
  refine ⟨h.capacity.symm, h.strategy.symm, h.seed.symm, ?_⟩
  have hflip := h.events.flip
  exact hflip.imp fun e e' he => ⟨he.index.symm, he.sources.symm, he.operators.symm⟩

open Draft in
/-- If the one can be built, then the other one matches it, or its arena is full. -/
theorem Config.Reordered.addEvents (h : c.Reordered c') (hfits : c'.GatesFit) {seed : UInt64}
    {e : Draft} (he : Draft.addEvents c' (Draft.new c' seed) = (.ok (), e)) :
    (∃ d T, Draft.addEvents c (Draft.new c seed) = (.ok (), d) ∧ Matched T d e) ∨
      ∃ x d, Draft.addEvents c (Draft.new c seed) = (.error x, d) ∧ x.OutOfMemory := by
  have hnew : Draft.new c seed = Draft.new c' seed := by
    rw [Draft.new, Draft.new, h.capacity, h.strategy, h.seed]
  obtain ⟨d, hd, hmatched, he⟩ := exists_matched_sources he
  rw [addEvents_apply, hnew, addEventSources_congr h.events, hd]
  exact hmatched.addEventOperators h.events hfits he

end Readout
