import Readout.Proofs.Config.Stages

/-!
# Growth of a draft

An operator that is added takes the next slots of the arena, the next condition bits of its event
and the next place in it. What is there already stays: names stand for what they stood for, and
slots that were taken before keep their values.
-/
namespace Readout

/-- What operators take one behind the other. -/
inductive Place
  | cell
  | bit (event : Nat)
  | node (event : Nat)

/-- An operator under its name, with the first of its condition bits. -/
def Operator.named (op : Operator) (name : String) (bit : Nat) : Named :=
  ⟨name, op.outputs, if 0 < op.kind.bitCount then some (bit, bit + op.kind.bitCount) else none⟩

theorem Operator.gatedBy_seated {op : Operator} (h : op.gate = none) (g : Option Nat) (bit : Nat) :
    { op.gatedBy g with kind := (op.gatedBy g).kind.withFirstBit bit } = op.seated g bit := by
  cases g with
  | none => rw [gatedBy, seated, ← h]
  | some b => rfl

namespace Draft

open Drafting

variable {d e f : Draft} {event : Nat} {o : OperatorConfig}

def eventAt (d : Draft) (i : Nat) : EventPlan := d.plan.events.getD i EventPlan.empty

/-- How much of each kind was taken. -/
def level (d : Draft) : Place → Nat
  | .cell => d.plan.arena.edge
  | .bit i => (d.eventAt i).bitCount
  | .node i => (d.eventAt i).operators.length

/-- What was there in the first draft is there in the second one. -/
structure Grows (d e : Draft) : Prop where
  level : ∀ κ, d.level κ ≤ e.level κ
  store : d.plan.arena.store.AgreeOn (· < d.level .cell) e.plan.arena.store
  find : ∀ i name n, d.find? i name = some n → e.find? i name = some n
  tags : ∀ x h, d.operators.lookup x = some h → e.operators.lookup x = some h
  nodes : ∀ (i j : Nat) (o : RankedOperator), (d.eventAt i).operators[j]? = some o →
    (e.eventAt i).operators[j]? = some o
  sources : ∀ i, (d.eventAt i).sources = (e.eventAt i).sources

theorem Grows.refl (d : Draft) : d.Grows d :=
  ⟨fun _ => Nat.le_refl _, .refl _ _, fun _ _ _ => id, fun _ _ => id, fun _ _ _ => id,
    fun _ => rfl⟩

theorem Grows.trans (h : d.Grows e) (k : e.Grows f) : d.Grows f where
  level κ := Nat.le_trans (h.level κ) (k.level κ)
  store := h.store.trans (k.store.mono fun _ hi => Nat.lt_of_lt_of_le hi (h.level .cell))
  find i name n hn := k.find i name n (h.find i name n hn)
  tags x t ht := k.tags x t (h.tags x t ht)
  nodes i j o ho := k.nodes i j o (h.nodes i j o ho)
  sources i := (h.sources i).trans (k.sources i)

/-- What holds of every draft from the first operator on. -/
structure Steady (d : Draft) : Prop where
  holding : Holding False [] [] d
  small : d.plan.arena.store.slots < Word.size 32
  names : d.names.length = Plan.maxEvents
  counted : ∀ i, (d.eventAt i).operators.length ≤ Handle.maxIndex + 1
  tagged : ∀ x h, d.operators.lookup x = some h → (d.find? x.event x.name).isSome = true
  bits : ∀ i name n, d.find? i name = some n → ∀ span ∈ n.bits,
    span.1 ≤ span.2 ∧ span.2 ≤ d.level (.bit i)

theorem eventAt_of_some {e : EventPlan} (he : d.plan.events[event]? = some e) :
    d.eventAt event = e := by
  rw [eventAt, List.getD_eq_getElem?_getD, he, Option.getD_some]

theorem eventAt_mem_or_empty (d : Draft) (i : Nat) :
    d.plan.events[i]? = some (d.eventAt i) ∨ d.eventAt i = EventPlan.empty := by
  rw [eventAt, List.getD_eq_getElem?_getD]
  cases d.plan.events[i]? with
  | none => exact Or.inr rfl
  | some e => exact Or.inl rfl

theorem mem_namesOf_of_find? {name : String} {n : Named} (h : d.find? event name = some n) :
    n ∈ d.namesOf event :=
  List.mem_of_find?_eq_some h

namespace Holding

variable {x : Prop} {v : Pipe}

theorem roomy (h : Holding x [] [] d) (hs : d.plan.arena.store.slots < Word.size 32) :
    d.plan.arena.Roomy :=
  ⟨h.sound.fits, h.sound.room, hs⟩

theorem stop_le_of_mem_owned (h : Holding x [] [] d) {t : Span} (ht : t ∈ (d.bench [] []).owned) :
    t.stop ≤ d.level .cell := by
  have hwithin := (h.sound.placed.within t ht).2
  change t.offset + t.length ≤ d.plan.arena.edge
  change _ ≤ d.plan.arena.used at hwithin
  rw [Arena.edge]
  simp only [Arena.valueSize] at hwithin ⊢
  omega

theorem stop_le (h : Holding x [] [] d) (hv : d.Knows event v) :
    ∀ t ∈ v.spans, t.stop ≤ d.level .cell := by
  obtain ⟨e, he, p, hp, hpv⟩ := h.knows hv
  have htap := d.outputs_subset_taps [] [] (List.mem_of_getElem? he) hp
  exact Pipe.stop_le_of_mem_views
    (fun t ht => h.stop_le_of_mem_owned (Workbench.spans_subset_owned htap ht)) hpv

theorem even (h : Holding x [] [] d) (hv : d.Knows event v) : v.Even := by
  obtain ⟨e, he, p, hp, hpv⟩ := h.knows hv
  exact Pipe.even_of_mem_views (h.sound.even_of_mem_taps
    (d.outputs_subset_taps [] [] (List.mem_of_getElem? he) hp)) hpv

/-- An operator has no more bits than an arena has slots. -/
theorem bitCount_lt (h : Holding x [] [] d) (hs : d.plan.arena.store.slots < Word.size 32)
    {op : Operator} (ho : op ∈ (d.bench [] []).allOperators) :
    op.kind.bitCount < Word.size 32 := by
  have hc := h.sound.operators op ho
  have hshaped := hc.shaped
  rw [Operator.Shaped] at hshaped
  have hone : 1 < Word.size 32 := by decide
  cases hk : op.kind with
  | intervalCondition intervals bit =>
    rw [hk] at hshaped
    obtain ⟨v, hv, -, hlen⟩ := hshaped
    obtain ⟨p, hp, hpv, -⟩ := hc.inputs v (hv ▸ List.mem_cons_self)
    have hstop := Pipe.stop_le_of_mem_views
      (fun t ht => h.sound.stop_le (Workbench.spans_subset_owned hp ht)) hpv v.data v.data_mem_spans
    change v.data.offset + v.data.length ≤ d.plan.arena.store.slots at hstop
    rw [Kind.bitCount, hlen, Pipe.length]
    omega
  | rectangleCondition => exact hone
  | polygonCondition => exact hone
  | _ => exact Nat.lt_trans Nat.zero_lt_one hone

end Holding

theorem length_flatMap_le {α β : Type} {f : α → List β} {n : Nat} {xs : List α}
    (h : ∀ x ∈ xs, (f x).length ≤ n) : (xs.flatMap f).length ≤ xs.length * n := by
  induction xs with
  | nil => exact Nat.zero_le _
  | cons x xs ih =>
    obtain ⟨hx, hxs⟩ := List.forall_mem_cons.1 h
    have hrest := ih hxs
    rw [List.flatMap_cons, List.length_append, List.length_cons, Nat.succ_mul]
    omega

namespace Steady

theorem bits_le (h : d.Steady) (i : Nat) : d.level (.bit i) ≤ EventPlan.maxBits := by
  rcases d.eventAt_mem_or_empty i with he | he
  · have hone : ∀ o ∈ (d.eventAt i).operators,
        (List.replicate o.operator.kind.bitCount o.rank).length ≤ 2 ^ 32 := by
      intro o ho
      rw [List.length_replicate]
      exact Nat.le_of_lt (h.holding.bitCount_lt h.small (List.mem_append_right _
        (List.mem_flatMap.2 ⟨_, List.mem_of_getElem? he, List.mem_map_of_mem ho⟩)))
    have hsum := length_flatMap_le hone
    have hcounted := h.counted i
    have hmax : Handle.maxIndex < 2 ^ 24 := Handle.maxIndex_lt
    change ((d.eventAt i).operators.flatMap _).length ≤ 2 ^ 56
    omega
  · rw [level, he]
    exact Nat.zero_le _

theorem narrow (h : d.Steady) (i : Nat) : d.Narrow i := by
  intro name n hn span hspan
  obtain ⟨hle, hlevel⟩ := h.bits i name n hn span hspan
  have hbits := h.bits_le i
  omega

theorem roomy (h : d.Steady) : d.plan.arena.Roomy := h.holding.roomy h.small

theorem within (h : d.Steady) (hlt : event < Plan.maxEvents) :
    d.plan.events[event]? = some (d.eventAt event) := by
  have hlen : event < d.plan.events.length := h.holding.count ▸ hlt
  rw [List.getElem?_eq_getElem hlen, eventAt, List.getD_eq_getElem?_getD,
    List.getElem?_eq_getElem hlen, Option.getD_some]

end Steady

/-- An operator was added: what it was made from, and where it is now. -/
structure Adds (event : Nat) (o : OperatorConfig) (r : Recipe) (op : Operator) (g : Option Nat)
    (d e : Draft) : Prop where
  claimed : d.claimed event o.name = .ok ()
  recipe : d.recipe event o.spec = .ok r
  make : r.make d.plan.arena = (.ok op, e.plan.arena)
  gate : d.gateBit event o.gate = .ok g
  within : event < Plan.maxEvents
  room : d.level (.node event) ≤ Handle.maxIndex
  operators : ∃ rank, (e.eventAt event).operators =
    (d.eventAt event).operators ++ [⟨op.seated g (d.level (.bit event)), rank⟩]
  sources : (e.eventAt event).sources = (d.eventAt event).sources
  others : ∀ i, i ≠ event → e.eventAt i = d.eventAt i
  find : ∀ i name, e.find? i name = if i = event ∧ name = o.name
    then some (op.named o.name (d.level (.bit event))) else d.find? i name
  tags : e.operators = (⟨event, o.name⟩, Handle.new event (d.level (.node event))) :: d.operators
  names : e.names.length = d.names.length

theorem free_of_claimed {name : String} (h : d.claimed event name = .ok ()) :
    d.find? event name = none := by
  rw [claimed] at h
  split at h
  · cases h
  · split at h
    · cases h
    · next hn => simpa using hn

theorem eventAt_seat {name : String} {a : Arena} {op : Operator} {p p' : EventPlan}
    (hp : d.plan.events[event]? = some p) (i : Nat) :
    (d.seat event name a op p p').eventAt i = if i = event then p' else d.eventAt i := by
  change (d.plan.events.set event p').getD i EventPlan.empty = _
  rw [List.getD_eq_getElem?_getD]
  by_cases hi : i = event
  · rw [if_pos hi, hi, List.getElem?_set_self (List.getElem?_eq_some_iff.1 hp).1, Option.getD_some]
  · rw [if_neg hi, List.getElem?_set_ne fun h => hi h.symm, eventAt, List.getD_eq_getElem?_getD]

theorem find?_seat {name : String} {a : Arena} {op : Operator} {p p' : EventPlan}
    (hlt : event < d.names.length) (i : Nat) (other : String) :
    (d.seat event name a op p p').find? i other =
      if i = event ∧ other = name then
        some ⟨name, op.outputs, ({ d.plan with
          arena := a, events := d.plan.events.set event p' } : Plan).bits?
            (Handle.new event p.operators.length)⟩
      else d.find? i other := by
  rw [find?, namesOf, find?, namesOf]
  simp only [seat, List.getD_eq_getElem?_getD, List.getElem?_modify]
  by_cases hi : i = event
  · subst hi
    rw [List.getElem?_eq_getElem hlt]
    by_cases hn : other = name
    · simp [hn]
    · have hne : ¬ name = other := fun h => hn h.symm
      simp [hn, hne]
  · have hne : ¬ event = i := fun h => hi h.symm
    rw [if_neg fun h : i = event ∧ other = name => hi h.1]
    simp [hne]

/-- The bits that a new operator has handed out. -/
theorem bits?_seated {p : Plan} {e e' : EventPlan} {op : Operator} {rank : Nat}
    (he : p.events[event]? = some e) (hlt : event < Plan.maxEvents)
    (hroom : e.operators.length ≤ Handle.maxIndex)
    (hops : e'.operators = e.operators ++ [⟨op.seated op.gate e.bitCount, rank⟩]) (a : Arena) :
    ({ p with arena := a, events := p.events.set event e' } : Plan).bits?
      (Handle.new event e.operators.length) =
        if 0 < op.kind.bitCount then some (e.bitCount, e.bitCount + op.kind.bitCount)
        else none := by
  have hsmall : event < 2 ^ 8 := Nat.lt_trans hlt (by decide)
  have hlen := (List.getElem?_eq_some_iff.1 he).1
  have hop : ({ p with arena := a, events := p.events.set event e' } : Plan).operator?
      (Handle.new event e.operators.length) = some ⟨op.seated op.gate e.bitCount, rank⟩ := by
    rw [Plan.operator?, Handle.event_new hsmall hroom, Handle.index_new hsmall hroom]
    simp [List.getElem?_set_self hlen, hops]
  rw [Plan.bits?, hop]
  simp only [Option.bind_eq_bind, Option.bind_some, Operator.seated, Operator.isCondition,
    Kind.bitCount_withFirstBit, decide_eq_true_eq]
  by_cases hpos : 0 < op.kind.bitCount
  · rw [Kind.firstBit?_withFirstBit hpos, Option.bind_some]
  · rw [if_neg hpos]
    cases (op.kind.withFirstBit e.bitCount).firstBit? <;> simp [hpos]

/-- Every successful addition comes about like this. -/
theorem Steady.adds (hd : d.Steady) (h : addOperator event o d = (.ok (), e)) :
    ∃ r op g, Adds event o r op g d e := by
  obtain ⟨r, op, a, g, p, p', hstages, rfl⟩ := exists_stages h
  have hlt : event < Plan.maxEvents :=
    hd.holding.count ▸ (List.getElem?_eq_some_iff.1 hstages.event).1
  have hat : d.eventAt event = p := eventAt_of_some hstages.event
  have hnone : op.gate = none :=
    (r.takes_make.result d.plan.arena op (by rw [hstages.make])).gate_eq
  have hroom : p.operators.length ≤ Handle.maxIndex := by
    have hadd := hstages.seat
    rw [EventPlan.addOperator] at hadd
    split at hadd
    · cases hadd
    · next hroom => exact Nat.not_lt.1 hroom
  obtain ⟨rank, -, hp'⟩ := EventPlan.addOperator_eq_ok hstages.seat
  rw [Operator.gatedBy_seated hnone] at hp'
  have hseat : ∀ i, (d.seat event o.name a (op.gatedBy g) p p').eventAt i =
      if i = event then p' else d.eventAt i := eventAt_seat hstages.event
  refine ⟨r, op, g, hstages.claimed, hstages.recipe, hstages.make, hstages.gate, hlt, ?_,
    ⟨rank, ?_⟩, ?_, fun i hi => ?_, fun i name => ?_, ?_, ?_⟩
  · rw [level, hat]
    exact hroom
  · rw [hseat, if_pos rfl, level, hat, hp']
  · rw [hseat, if_pos rfl, hat, hp']
  · rw [hseat, if_neg hi]
  · have hops : p'.operators = p.operators ++
        [⟨(op.gatedBy g).seated (op.gatedBy g).gate p.bitCount, rank⟩] := by
      rw [hp']
      cases g with
      | none => rw [Operator.gatedBy, ← hnone]
      | some b => rfl
    rw [find?_seat (hd.names ▸ hlt), bits?_seated hstages.event hlt hroom hops]
    refine if_congr Iff.rfl ?_ rfl
    rw [level, hat]
    cases g <;> rfl
  · rw [level, hat]
    rfl
  · exact List.length_modify ..

namespace Adds

variable {r : Recipe} {op : Operator} {g : Option Nat}

theorem free (h : Adds event o r op g d e) : d.find? event o.name = none :=
  free_of_claimed h.claimed

theorem made (h : Adds event o r op g d e) : Operator.MadeFrom r.inputs r.planeBins? op :=
  r.takes_make.result d.plan.arena op (by rw [h.make])

theorem onward (h : Adds event o r op g d e) : d.plan.arena.Onward e.plan.arena := by
  have honward := r.takes_make.onward d.plan.arena
  rwa [h.make] at honward

/-- An operator reads what has a name. -/
theorem known (h : Adds event o r op g d e) (hd : d.Steady) : ∀ v ∈ r.inputs, d.Knows event v := by
  have hmake : makeOperator event o.spec d =
      (.ok op, { d with plan := { d.plan with arena := e.plan.arena } }) := by
    rw [makeOperator_eq, looking_bind, h.recipe]
    change ((r.make d.plan.arena).1,
      { d with plan := { d.plan with arena := (r.make d.plan.arena).2 } }) = _
    rw [h.make]
  have hwaiting := leads_makeOperator (x := False) event nofun d hd.holding op _ hmake
  intro v hv
  exact hwaiting.2 v (h.made.inputs_eq ▸ hv)

theorem level_node (h : Adds event o r op g d e) :
    e.level (.node event) = d.level (.node event) + 1 := by
  obtain ⟨rank, hops⟩ := h.operators
  rw [level, hops, List.length_append]
  rfl

theorem level_bit (h : Adds event o r op g d e) :
    e.level (.bit event) = d.level (.bit event) + op.kind.bitCount := by
  obtain ⟨rank, hops⟩ := h.operators
  simp [level, EventPlan.bitCount, EventPlan.bitRanks, hops, Operator.seated]

theorem level_other (h : Adds event o r op g d e) {i : Nat} (hi : i ≠ event) :
    e.level (.bit i) = d.level (.bit i) ∧ e.level (.node i) = d.level (.node i) := by
  rw [level, level, level, level, h.others i hi]
  exact ⟨rfl, rfl⟩

theorem sources_eq (h : Adds event o r op g d e) (i : Nat) :
    (e.eventAt i).sources = (d.eventAt i).sources := by
  by_cases hi : i = event
  · rw [hi, h.sources]
  · rw [h.others i hi]

theorem find_here (h : Adds event o r op g d e) :
    e.find? event o.name = some (op.named o.name (d.level (.bit event))) := by
  rw [h.find, if_pos ⟨rfl, rfl⟩]

theorem find_old (h : Adds event o r op g d e) {i : Nat} {name : String} {n : Named}
    (hn : d.find? i name = some n) : e.find? i name = some n := by
  rw [h.find, if_neg, hn]
  rintro ⟨rfl, rfl⟩
  rw [h.free] at hn
  cases hn

theorem grows (h : Adds event o r op g d e) (hd : d.Steady) : d.Grows e := by
  obtain ⟨hedge, hkeep⟩ := Recipe.make_keeps hd.roomy
    (fun v hv => ⟨hd.holding.even (h.known hd v hv), hd.holding.stop_le (h.known hd v hv)⟩) h.make
  obtain ⟨rank, hops⟩ := h.operators
  refine ⟨fun κ => ?_, hkeep, fun i name n => h.find_old, fun x t ht => ?_, fun i j p hp => ?_,
    fun i => (h.sources_eq i).symm⟩
  · cases κ with
    | cell => exact hedge
    | bit i =>
      by_cases hi : i = event
      · rw [hi, h.level_bit]
        exact Nat.le_add_right _ _
      · exact Nat.le_of_eq (h.level_other hi).1.symm
    | node i =>
      by_cases hi : i = event
      · rw [hi, h.level_node]
        exact Nat.le_succ _
      · exact Nat.le_of_eq (h.level_other hi).2.symm
  · have hne : (x == (⟨event, o.name⟩ : NodeName)) = false := by
      refine beq_false_of_ne ?_
      rintro rfl
      have hsome := hd.tagged _ t ht
      rw [h.free] at hsome
      cases hsome
    rw [h.tags, List.lookup_cons, hne]
    exact ht
  · by_cases hi : i = event
    · rw [hi] at hp ⊢
      rw [hops, List.getElem?_append_left (List.getElem?_eq_some_iff.1 hp).1]
      exact hp
    · rw [h.others i hi]
      exact hp

theorem steady (h : Adds event o r op g d e) (hd : d.Steady)
    (hadd : addOperator event o d = (.ok (), e)) : e.Steady := by
  have hgrows := h.grows hd
  refine ⟨leads_configOperator event nofun d hd.holding () e hadd, h.onward.slots_eq ▸ hd.small,
    h.names.trans hd.names, fun i => ?_, fun x t ht => ?_, fun i name n hn span hspan => ?_⟩
  · by_cases hi : i = event
    · have hroom := h.room
      have hnext := h.level_node
      rw [hi]
      change e.level (.node event) ≤ _
      omega
    · rw [h.others i hi]
      exact hd.counted i
  · rw [h.tags, List.lookup_cons] at ht
    split at ht
    · next hx =>
      obtain rfl := eq_of_beq hx
      rw [h.find_here]
      rfl
    · obtain ⟨n, hn⟩ := Option.isSome_iff_exists.1 (hd.tagged x t ht)
      rw [h.find_old hn]
      rfl
  · rw [h.find] at hn
    split at hn
    · next hhere =>
      obtain ⟨rfl, rfl⟩ := hhere
      obtain rfl := Option.some.inj hn
      rw [h.level_bit]
      simp only [Operator.named, Option.mem_def, Option.ite_none_right_eq_some] at hspan
      obtain ⟨-, hspan⟩ := hspan
      obtain rfl := Option.some.inj hspan
      exact ⟨Nat.le_add_right _ _, Nat.le_refl _⟩
    · obtain ⟨hle, hlevel⟩ := hd.bits i name n hn span hspan
      exact ⟨hle, Nat.le_trans hlevel (hgrows.level _)⟩

end Adds

end Draft

end Readout
