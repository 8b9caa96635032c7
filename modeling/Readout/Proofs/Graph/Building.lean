import Mathlib.Algebra.Group.Nat.Defs
import Mathlib.Data.List.Induction
import Readout.Proofs.Graph.Order

/-!
# From a plan to its graph

A plan is a table from handles to nodes. A call that adds a node puts it at a new handle, above
those that the event has handed out before, and a call that is turned down changes nothing
(`Growing`). So after any calls each handle names the node whose addition returned it, and in the
graph the order in which the nodes of an event stand does not change what it names
(`InPlaces`).
-/
namespace Readout

namespace Handle

theorem maxIndex_lt : maxIndex < 2 ^ 24 := by decide

theorem toNat_new {event index : Nat} (he : event < 2 ^ 8) (hi : index ≤ maxIndex) :
    (new event index).word.toNat = event <<< 24 + index := by
  have hlt : index < 2 ^ 24 := Nat.lt_of_le_of_lt hi maxIndex_lt
  have hmask : (0xffffff : Nat) = 2 ^ 24 - 1 := rfl
  have hshift : event <<< 24 = event * 2 ^ 24 := Nat.shiftLeft_eq event 24
  simp only [new, UInt32.toNat_or, UInt32.toNat_shiftLeft, UInt32.toNat_and, UInt32.toNat_ofNat']
  change (event % 2 ^ 32) <<< 24 % 2 ^ 32 ||| (index % 2 ^ 32 &&& 0xffffff) = _
  rw [Nat.mod_eq_of_lt (by omega : event < 2 ^ 32), Nat.mod_eq_of_lt (by omega : event <<< 24 < _),
    hmask, Nat.and_two_pow_sub_one_eq_mod, Nat.mod_eq_of_lt (by omega : index < 2 ^ 32),
    Nat.mod_eq_of_lt hlt, Nat.shiftLeft_add_eq_or_of_lt hlt]

theorem event_eq (h : Handle) : h.event = h.word.toNat / 2 ^ 24 := by
  rw [event, UInt32.toNat_shiftRight]
  exact Nat.shiftRight_eq_div_pow _ _

theorem index_eq (h : Handle) : h.index = h.word.toNat % 2 ^ 24 := by
  rw [index, UInt32.toNat_and]
  exact Nat.and_two_pow_sub_one_eq_mod _ 24

theorem event_new {event index : Nat} (he : event < 2 ^ 8) (hi : index ≤ maxIndex) :
    (new event index).event = event := by
  have hlt : index < 2 ^ 24 := Nat.lt_of_le_of_lt hi maxIndex_lt
  rw [event_eq, toNat_new he hi, Nat.shiftLeft_eq]
  omega

theorem index_new {event index : Nat} (he : event < 2 ^ 8) (hi : index ≤ maxIndex) :
    (new event index).index = index := by
  have hlt : index < 2 ^ 24 := Nat.lt_of_le_of_lt hi maxIndex_lt
  rw [index_eq, toNat_new he hi, Nat.shiftLeft_eq]
  omega

theorem eq_of_parts {h k : Handle} (he : h.event = k.event) (hi : h.index = k.index) : h = k := by
  rw [event_eq, event_eq] at he
  rw [index_eq, index_eq] at hi
  have hword : h.word.toNat = k.word.toNat := by
    rw [← Nat.div_add_mod h.word.toNat (2 ^ 24), he, hi, Nat.div_add_mod]
  cases h
  cases k
  exact congrArg mk (UInt32.toNat_inj.1 hword)

end Handle

/-- A call on a plan. Nodes are made between the calls that add them, which changes the arena. -/
inductive PlanCall
  | alloc (change : Arena → Arena)
  | addSource (event : Nat) (s : Source)
  | addOperator (event : Nat) (op : Operator)

namespace PlanCall

def apply (p : Plan) : PlanCall → Plan
  | alloc change => { p with arena := change p.arena }
  | addSource event s => (Plan.addSource event s p).2
  | addOperator event op => (Plan.addOperator event op p).2

/-- The handle of the node that the call adds, or why it is turned down. -/
def answer? (p : Plan) : PlanCall → Option (Except Error Handle)
  | alloc _ => none
  | addSource event s => some (Plan.addSource event s p).1
  | addOperator event op => some (Plan.addOperator event op p).1

/-- The source that the call adds. -/
def newSource? (p : Plan) : PlanCall → Option (Handle × Source)
  | addSource event s =>
    match Plan.addSource event s p with
    | (.ok h, _) => some (h, s)
    | (.error _, _) => none
  | _ => none

/-- The operator that the call adds, as it stands in the plan then. -/
def newOperator? (p : Plan) : PlanCall → Option (Handle × RankedOperator)
  | addOperator event op =>
    match Plan.addOperator event op p with
    | (.ok h, p) => (p.operator? h).map fun o => (h, o)
    | (.error _, _) => none
  | _ => none

end PlanCall

/-- An operator as it stands in an event from when it is added there. -/
def EventPlan.ranked (e : EventPlan) (op : Operator) (rank : Nat) : RankedOperator :=
  ⟨{ op with kind := op.kind.withFirstBit e.bitCount }, rank⟩

namespace Plan

/-- A plan without nodes, over an arena from which anything may have been taken. -/
def withArena (arena : Arena) (strategy : FillStrategy) : Plan :=
  ⟨arena, strategy, List.replicate maxEvents EventPlan.empty⟩

def afterCalls (p : Plan) (calls : List PlanCall) : Plan := calls.foldl PlanCall.apply p

theorem afterCalls_append (p : Plan) (before behind : List PlanCall) :
    p.afterCalls (before ++ behind) = (p.afterCalls before).afterCalls behind :=
  List.foldl_append

/-- A node of one kind by its event and its number. -/
def at? {α : Type} (nodes : EventPlan → List α) (p : Plan) (event index : Nat) : Option α := do
  (nodes (← p.events[event]?))[index]?

section Additions

variable {p p' : Plan} {event : Nat} {h : Handle}

/-- The event of an accepted source before the call and after it. -/
theorem addSource_spec {s : Source} (hr : addSource event s p = (.ok h, p')) :
    ∃ e e', p.events[event]? = some e ∧ e.sources.length ≤ Handle.maxIndex ∧
      h = Handle.new event e.sources.length ∧ e'.sources = e.sources ++ [s] ∧
      e'.operators = e.operators ∧ p' = { p with events := p.events.set event e' } := by
  rw [addSource_apply] at hr
  split at hr
  · cases hr
  · split at hr
    · cases hr
    · next e he =>
      cases ha : e.addSource s with
      | error c =>
        rw [ha] at hr
        cases hr
      | ok e' =>
        rw [ha] at hr
        obtain ⟨hh, rfl⟩ := Prod.mk.inj hr
        have hroom : e.sources.length ≤ Handle.maxIndex := by
          rw [EventPlan.addSource] at ha
          split at ha
          · cases ha
          · next hroom => exact Nat.not_lt.1 hroom
        have hmore := EventPlan.addSource_eq_ok ha
        exact ⟨e, e', he, hroom, (Except.ok.inj hh).symm, by rw [hmore], by rw [hmore], rfl⟩

theorem addOperator_spec {op : Operator} (hr : addOperator event op p = (.ok h, p')) :
    ∃ e e' rank, p.events[event]? = some e ∧ e.operators.length ≤ Handle.maxIndex ∧
      h = Handle.new event e.operators.length ∧ e.rankFor op = .ok rank ∧
      e'.operators = e.operators ++ [e.ranked op rank] ∧ e'.sources = e.sources ∧
      p' = { p with events := p.events.set event e' } := by
  rw [addOperator_apply] at hr
  split at hr
  · cases hr
  · next e he =>
    cases ha : e.addOperator op with
    | error c =>
      rw [ha] at hr
      cases hr
    | ok e' =>
      rw [ha] at hr
      obtain ⟨hh, rfl⟩ := Prod.mk.inj hr
      have hroom : e.operators.length ≤ Handle.maxIndex := by
        rw [EventPlan.addOperator] at ha
        split at ha
        · cases ha
        · next hroom => exact Nat.not_lt.1 hroom
      obtain ⟨rank, hrank, hmore⟩ := EventPlan.addOperator_eq_ok ha
      refine ⟨e, e', rank, he, hroom, (Except.ok.inj hh).symm, hrank, ?_, ?_, rfl⟩
      · rw [hmore, EventPlan.ranked]
      · rw [hmore]

section Changes

variable {α : Type} {nodes : EventPlan → List α} {e e' : EventPlan} {x : α}

/-- Nodes of the other kind stay where they are. -/
theorem at?_set_same (he : p.events[event]? = some e) (hn : nodes e' = nodes e) (i index : Nat) :
    at? nodes { p with events := p.events.set event e' } i index = at? nodes p i index := by
  have hlt := (List.getElem?_eq_some_iff.1 he).1
  by_cases hi : i = event
  · simp [at?, hi, List.getElem?_set_self hlt, he, hn]
  · simp [at?, List.getElem?_set_ne (Ne.symm hi)]

/-- One node more stands behind the others of its event, where no node was. -/
theorem at?_set_append (he : p.events[event]? = some e) (hn : nodes e' = nodes e ++ [x])
    (i index : Nat) :
    at? nodes { p with events := p.events.set event e' } i index =
      if i = event ∧ index = (nodes e).length then some x else at? nodes p i index := by
  have hlt := (List.getElem?_eq_some_iff.1 he).1
  by_cases hi : i = event
  · subst hi
    have hget : at? nodes { p with events := p.events.set i e' } i index =
        (nodes e ++ [x])[index]? := by
      simp [at?, List.getElem?_set_self hlt, hn]
    have hold : at? nodes p i index = (nodes e)[index]? := by simp [at?, he]
    rw [hget, hold]
    by_cases hx : index = (nodes e).length
    · simp [hx]
    · rw [if_neg fun h => hx h.2, List.getElem?_append]
      split
      · rfl
      · next hlong =>
        rw [List.getElem?_eq_none (by simp; omega),
          List.getElem?_eq_none (Nat.not_lt.1 hlong)]
  · rw [if_neg fun h => hi h.1]
    simp [at?, List.getElem?_set_ne (Ne.symm hi)]

end Changes

end Additions

end Plan

/-- What calls do to the nodes of a kind: a call that adds none leaves all where they are, and one
that adds a node puts it behind those of its event. -/
structure Growing {α : Type} (nodes : EventPlan → List α)
    (new? : Plan → PlanCall → Option (Handle × α)) : Prop where
  start : nodes EventPlan.empty = []
  kept : ∀ p c, p.events.length = Plan.maxEvents → new? p c = none →
    ∀ i index, (c.apply p).at? nodes i index = p.at? nodes i index
  gained : ∀ p c h x, p.events.length = Plan.maxEvents → new? p c = some (h, x) →
    (∃ e, p.events[h.event]? = some e ∧ h.index = (nodes e).length) ∧
      ∀ i index, (c.apply p).at? nodes i index =
        if i = h.event ∧ index = h.index then some x else p.at? nodes i index

theorem PlanCall.length_events (p : Plan) (c : PlanCall) :
    (c.apply p).events.length = p.events.length := by
  cases c with
  | alloc change => rfl
  | addSource event s =>
    rw [apply]
    rcases hr : Plan.addSource event s p with ⟨c | h, p'⟩
    · rw [Plan.addSource_error hr]
    · obtain ⟨e, e', -, -, -, -, -, rfl⟩ := Plan.addSource_spec hr
      exact List.length_set
  | addOperator event op =>
    rw [apply]
    rcases hr : Plan.addOperator event op p with ⟨c | h, p'⟩
    · rw [Plan.addOperator_error hr]
    · obtain ⟨e, e', rank, -, -, -, -, -, -, rfl⟩ := Plan.addOperator_spec hr
      exact List.length_set

/-- The bound on the number of events keeps them apart in a handle. -/
theorem Plan.event_lt {p : Plan} {event : Nat} {e : EventPlan} (hp : p.events.length = maxEvents)
    (he : p.events[event]? = some e) : event < 2 ^ 8 := by
  have hlt := (List.getElem?_eq_some_iff.1 he).1
  rw [hp] at hlt
  exact Nat.lt_trans hlt (by decide)

theorem growing_sources : Growing EventPlan.sources PlanCall.newSource? where
  start := rfl
  kept := by
    intro p c hp hnone i index
    cases c with
    | alloc change => rfl
    | addSource event s =>
      rcases hr : Plan.addSource event s p with ⟨c | h, p'⟩
      · rw [PlanCall.apply, hr, Plan.addSource_error hr]
      · simp [PlanCall.newSource?, hr] at hnone
    | addOperator event op =>
      rcases hr : Plan.addOperator event op p with ⟨c | h, p'⟩
      · rw [PlanCall.apply, hr, Plan.addOperator_error hr]
      · obtain ⟨e, e', rank, he, -, -, -, -, hsame, rfl⟩ := Plan.addOperator_spec hr
        rw [PlanCall.apply, hr]
        exact Plan.at?_set_same he hsame i index
  gained := by
    intro p c h x hp hsome
    cases c with
    | addSource event s =>
      rcases hr : Plan.addSource event s p with ⟨c | h', p'⟩
      · simp [PlanCall.newSource?, hr] at hsome
      · simp only [PlanCall.newSource?, hr, Option.some.injEq, Prod.mk.injEq] at hsome
        obtain ⟨rfl, rfl⟩ := hsome
        obtain ⟨e, e', he, hroom, rfl, hmore, -, rfl⟩ := Plan.addSource_spec hr
        have hlt := Plan.event_lt hp he
        rw [Handle.event_new hlt hroom, Handle.index_new hlt hroom, PlanCall.apply, hr]
        exact ⟨⟨e, he, rfl⟩, Plan.at?_set_append he hmore⟩
    | _ => simp [PlanCall.newSource?] at hsome

/-- An operator that is accepted stands in the plan under its handle. -/
theorem Plan.operator?_addOperator {p p' : Plan} {event : Nat} {op : Operator} {h : Handle}
    (hp : p.events.length = maxEvents) (hr : addOperator event op p = (.ok h, p')) :
    ∃ e rank, p.events[event]? = some e ∧ h.event = event ∧ h.index = e.operators.length ∧
      e.rankFor op = .ok rank ∧ p'.operator? h = some (e.ranked op rank) ∧
      ∀ i index, p'.at? EventPlan.operators i index =
        if i = event ∧ index = h.index then some (e.ranked op rank)
        else p.at? EventPlan.operators i index := by
  obtain ⟨e, e', rank, he, hroom, rfl, hrank, hmore, -, rfl⟩ := addOperator_spec hr
  have hevent := Handle.event_new (event_lt hp he) hroom
  have hindex := Handle.index_new (event_lt hp he) hroom
  have hnode := at?_set_append he hmore
  refine ⟨e, rank, he, hevent, hindex, hrank, (hnode _ _).trans (if_pos ⟨hevent, hindex⟩), ?_⟩
  rw [hindex]
  exact hnode

theorem growing_operators : Growing EventPlan.operators PlanCall.newOperator? where
  start := rfl
  kept := by
    intro p c hp hnone i index
    cases c with
    | alloc change => rfl
    | addSource event s =>
      rcases hr : Plan.addSource event s p with ⟨c | h, p'⟩
      · rw [PlanCall.apply, hr, Plan.addSource_error hr]
      · obtain ⟨e, e', he, -, -, -, hsame, rfl⟩ := Plan.addSource_spec hr
        rw [PlanCall.apply, hr]
        exact Plan.at?_set_same he hsame i index
    | addOperator event op =>
      rcases hr : Plan.addOperator event op p with ⟨c | h, p'⟩
      · rw [PlanCall.apply, hr, Plan.addOperator_error hr]
      · obtain ⟨e, rank, -, -, -, -, hop, -⟩ := Plan.operator?_addOperator hp hr
        simp [PlanCall.newOperator?, hr, hop] at hnone
  gained := by
    intro p c h x hp hsome
    cases c with
    | addOperator event op =>
      rcases hr : Plan.addOperator event op p with ⟨c | h', p'⟩
      · simp [PlanCall.newOperator?, hr] at hsome
      · obtain ⟨e, rank, he, hevent, hindex, -, hop, hnode⟩ := Plan.operator?_addOperator hp hr
        simp only [PlanCall.newOperator?, hr, hop, Option.map_some, Option.some.injEq,
          Prod.mk.injEq] at hsome
        obtain ⟨rfl, rfl⟩ := hsome
        rw [PlanCall.apply, hr, hevent]
        exact ⟨⟨e, he, hindex⟩, hnode⟩
    | _ => simp [PlanCall.newOperator?] at hsome

theorem Plan.length_afterCalls (p : Plan) (calls : List PlanCall) :
    (p.afterCalls calls).events.length = p.events.length := by
  induction calls generalizing p with
  | nil => rfl
  | cons c calls ih =>
    rw [afterCalls, List.foldl_cons, ← afterCalls, ih, PlanCall.length_events]

/-- The call at a position adds a node, and this is the handle that it returns. -/
def Plan.Adds {α : Type} (p : Plan) (new? : Plan → PlanCall → Option (Handle × α))
    (calls : List PlanCall) (k : Nat) (h : Handle) (x : α) : Prop :=
  ∃ c, calls[k]? = some c ∧ new? (p.afterCalls (calls.take k)) c = some (h, x)

section Histories

variable {α : Type} {nodes : EventPlan → List α} {new? : Plan → PlanCall → Option (Handle × α)}
  {p : Plan} {calls : List PlanCall} {k l : Nat} {g h : Handle} {x y : α}

theorem Plan.Adds.lt (hk : p.Adds new? calls k h x) : k < calls.length := by
  obtain ⟨c, hc, -⟩ := hk
  exact (List.getElem?_eq_some_iff.1 hc).1

theorem Plan.adds_snoc (c : PlanCall) : p.Adds new? (calls ++ [c]) k h x ↔
    p.Adds new? calls k h x ∨ k = calls.length ∧ new? (p.afterCalls calls) c = some (h, x) := by
  rcases Nat.lt_trichotomy k calls.length with hk | rfl | hk
  · have hne : ¬ (k = calls.length ∧ new? (p.afterCalls calls) c = some (h, x)) :=
      fun hl => Nat.ne_of_lt hk hl.1
    rw [or_iff_left hne, Adds, Adds, List.getElem?_append_left hk,
      List.take_append_of_le_length (Nat.le_of_lt hk)]
  · have hnot : ¬ p.Adds new? calls calls.length h x := fun hl => Nat.lt_irrefl _ hl.lt
    rw [or_iff_right hnot, Adds]
    simp
  · have hleft : ¬ p.Adds new? (calls ++ [c]) k h x := fun hl => by
      have hlt := hl.lt
      rw [List.length_append, List.length_singleton] at hlt
      omega
    have hright : ¬ p.Adds new? calls k h x := fun hl => Nat.lt_asymm hk hl.lt
    exact iff_of_false hleft (not_or.2 ⟨hright, fun hl => Nat.ne_of_gt hk hl.1⟩)

theorem Plan.Adds.take (hk : p.Adds new? calls k h x) (hkl : k < l) :
    p.Adds new? (calls.take l) k h x := by
  obtain ⟨c, hc, hnew⟩ := hk
  refine ⟨c, by rw [List.getElem?_take_of_lt hkl, hc], ?_⟩
  rwa [List.take_take, Nat.min_eq_left (Nat.le_of_lt hkl)]

theorem Plan.Adds.unique (hk : p.Adds new? calls k h x) (hl : p.Adds new? calls k g y) :
    h = g ∧ x = y := by
  obtain ⟨c, hc, hx⟩ := hk
  obtain ⟨c', hc', hy⟩ := hl
  obtain rfl : c = c' := Option.some.inj (hc.symm.trans hc')
  exact Prod.mk.inj (Option.some.inj (hx.symm.trans hy))

namespace Growing

theorem length_events (hp : p.events = List.replicate Plan.maxEvents EventPlan.empty)
    (calls : List PlanCall) : (p.afterCalls calls).events.length = Plan.maxEvents := by
  rw [Plan.length_afterCalls, hp, List.length_replicate]

/-- The nodes of an event are those that were added to it, at the numbers of their handles. -/
theorem at?_afterCalls (hg : Growing nodes new?)
    (hp : p.events = List.replicate Plan.maxEvents EventPlan.empty) (calls : List PlanCall)
    (event index : Nat) (x : α) : (p.afterCalls calls).at? nodes event index = some x ↔
      ∃ h, (∃ k, p.Adds new? calls k h x) ∧ event = h.event ∧ index = h.index := by
  induction calls using List.reverseRecOn generalizing event index x with
  | nil =>
    have hnone : p.at? nodes event index = none := by
      simp only [Plan.at?, hp, List.getElem?_replicate]
      split <;> simp [hg.start]
    rw [Plan.afterCalls, List.foldl_nil, hnone]
    exact iff_of_false nofun fun ⟨h, ⟨k, hk⟩, _⟩ => Nat.not_lt_zero k hk.lt
  | append_singleton calls c ih =>
    have hlength := length_events hp calls
    rw [Plan.afterCalls_append]
    change (c.apply (p.afterCalls calls)).at? nodes event index = some x ↔ _
    simp only [Plan.adds_snoc, exists_or, exists_and_right, exists_eq, true_and]
    cases hc : new? (p.afterCalls calls) c with
    | none => simp [hg.kept _ c hlength hc, ih]
    | some r =>
      obtain ⟨g, y⟩ := r
      obtain ⟨⟨e, he, hindex⟩, hnode⟩ := hg.gained _ c g y hlength hc
      -- the number of the new node was free
      have hfresh : (p.afterCalls calls).at? nodes g.event g.index = none := by
        simp [Plan.at?, he, hindex]
      rw [hnode]
      constructor
      · intro hx
        split at hx
        · next hplace =>
          cases hx
          exact ⟨g, .inr rfl, hplace⟩
        · obtain ⟨h, hk, hplace⟩ := (ih event index x).1 hx
          exact ⟨h, .inl hk, hplace⟩
      · rintro ⟨h, hk | heq, hplace⟩
        · have hthere := (ih event index x).2 ⟨h, hk, hplace⟩
          rw [if_neg, hthere]
          rintro ⟨rfl, rfl⟩
          rw [hfresh] at hthere
          cases hthere
        · obtain ⟨rfl, rfl⟩ := Prod.mk.inj (Option.some.inj heq)
          exact if_pos hplace

/-- Every handle names the node whose addition returned it, and nothing else is named. -/
theorem at?_handle (hg : Growing nodes new?)
    (hp : p.events = List.replicate Plan.maxEvents EventPlan.empty) (calls : List PlanCall)
    (h : Handle) (x : α) : (p.afterCalls calls).at? nodes h.event h.index = some x ↔
      ∃ k, p.Adds new? calls k h x := by
  rw [hg.at?_afterCalls hp]
  constructor
  · rintro ⟨g, hk, hevent, hindex⟩
    rwa [Handle.eq_of_parts hevent hindex]
  · intro hk
    exact ⟨h, hk, rfl, rfl⟩

theorem index_lt (hg : Growing nodes new?)
    (hp : p.events = List.replicate Plan.maxEvents EventPlan.empty)
    (hk : p.Adds new? calls k h x) (hl : p.Adds new? calls l g y) (hevent : h.event = g.event)
    (hkl : k < l) : h.index < g.index := by
  have hthere := (hg.at?_handle hp (calls.take l) h x).2 ⟨k, hk.take hkl⟩
  obtain ⟨c, -, hnew⟩ := hl
  obtain ⟨⟨e, he, hindex⟩, -⟩ := hg.gained _ c g y (length_events hp _) hnew
  simp only [Plan.at?, hevent, he, Option.bind_eq_bind, Option.bind_some] at hthere
  rw [hindex]
  exact (List.getElem?_eq_some_iff.1 hthere).1

/-- The nodes of an event are numbered as they are added. -/
theorem lt_iff_index_lt (hg : Growing nodes new?)
    (hp : p.events = List.replicate Plan.maxEvents EventPlan.empty)
    (hk : p.Adds new? calls k h x) (hl : p.Adds new? calls l g y) (hevent : h.event = g.event) :
    k < l ↔ h.index < g.index := by
  refine ⟨hg.index_lt hp hk hl hevent, fun hindex => ?_⟩
  rcases Nat.lt_trichotomy k l with hkl | rfl | hlk
  · exact hkl
  · rw [(hk.unique hl).1] at hindex
    exact absurd hindex (Nat.lt_irrefl _)
  · exact absurd (hg.index_lt hp hl hk hevent.symm hlk) (Nat.lt_asymm hindex)

end Growing

end Histories

/-- How the nodes of an event stand in the graph: which nodes, in which order, what is found in the
place of each number, and the keys in the order of the nodes. -/
structure InPlaces {α : Type} (key : α → Nat) (nodes : List α) (ns : List (Numbered α)) :
    Prop where
  perm : ns.Perm (numbered nodes)
  sorted : ns.Pairwise (Numbered.Before key)
  places : ∀ i : Nat, ((inverse (orderOf key nodes))[i]?.bind fun place => ns[place]?) =
    (numbered nodes)[i]?
  keys : (ns.map fun n => key n.node) = (orderOf key nodes).map fun i => (nodes.map key).getD i 0

theorem inPlaces_sortBy {α : Type} (key : α → Nat) (nodes : List α) :
    InPlaces key nodes (sortBy key nodes) :=
  ⟨sortBy_perm key nodes, pairwise_sortBy key nodes, getElem?_place key nodes,
    map_key_sortBy key nodes⟩

/-- The nodes of one kind after calls on a plan without nodes: what a handle names, how handles are
numbered, and how the nodes stand in each event. -/
structure Housed {α : Type} (new? : Plan → PlanCall → Option (Handle × α)) (key : α → Nat)
    (p : Plan) (calls : List PlanCall) (find? : Handle → Option α)
    (stand? : Nat → Option (List (Numbered α))) : Prop where
  named : ∀ h x, find? h = some x ↔ ∃ k, p.Adds new? calls k h x
  counted : ∀ k l g h x y, p.Adds new? calls k g x → p.Adds new? calls l h y →
    g.event = h.event → (k < l ↔ g.index < h.index)
  slots : ∀ event < Plan.maxEvents, ∃ nodes ns, stand? event = some ns ∧ InPlaces key nodes ns ∧
    ∀ i x, nodes[i]? = some x ↔
      ∃ h, (∃ k, p.Adds new? calls k h x) ∧ event = h.event ∧ i = h.index

theorem Growing.housed {α : Type} {nodes : EventPlan → List α}
    {new? : Plan → PlanCall → Option (Handle × α)} (hg : Growing nodes new?) {p : Plan}
    (hp : p.events = List.replicate Plan.maxEvents EventPlan.empty) (key : α → Nat)
    (calls : List PlanCall) : Housed new? key p calls
      (fun h => (p.afterCalls calls).at? nodes h.event h.index)
      (fun event => (p.afterCalls calls).events[event]?.map fun e => sortBy key (nodes e)) where
  named := hg.at?_handle hp calls
  counted k l g h x y hk hl hevent := hg.lt_iff_index_lt hp hk hl hevent
  slots := by
    intro event hevent
    have hlt : event < (p.afterCalls calls).events.length := by
      rwa [length_events hp]
    have he := List.getElem?_eq_getElem hlt
    refine ⟨_, _, by rw [he, Option.map_some], inPlaces_sortBy key _, fun i x => ?_⟩
    rw [← hg.at?_afterCalls hp, Plan.at?, he]
    rfl

namespace Plan

/-- The graph finds the nodes that the plan finds. -/
theorem source?_build (p : Plan) (volume : Volume) (h : Handle) :
    (p.build volume).source? h = p.source? h := by
  simp only [Graph.source?, build, source?, List.getElem?_map]
  cases p.events[h.event]? with
  | none => rfl
  | some e => exact find?_sortBy Source.moduleIndex e.sources h.index

theorem operator?_build (p : Plan) (volume : Volume) (h : Handle) :
    (p.build volume).operator? h = p.operator? h := by
  simp only [Graph.operator?, build, operator?, List.getElem?_map]
  cases p.events[h.event]? with
  | none => rfl
  | some e => exact find?_sortBy RankedOperator.rank e.operators h.index

theorem sources_build (p : Plan) (volume : Volume) (event : Nat) :
    (p.build volume).slots[event]?.map Slot.sources =
      p.events[event]?.map fun e : EventPlan => sortBy Source.moduleIndex e.sources := by
  rw [build, List.getElem?_map, Option.map_map]
  rfl

theorem operators_build (p : Plan) (volume : Volume) (event : Nat) :
    (p.build volume).slots[event]?.map Slot.operators =
      p.events[event]?.map fun e : EventPlan => sortBy RankedOperator.rank e.operators := by
  rw [build, List.getElem?_map, Option.map_map]
  rfl

end Plan

/-- A graph that was built after any calls on a plan. -/
structure Assembled (p : Plan) (calls : List PlanCall) (g : Graph) : Prop where
  /-- A call that is turned down might as well not have been made. -/
  rejected : ∀ before c behind err, c.answer? (p.afterCalls before) = some (.error err) →
    p.afterCalls (before ++ c :: behind) = p.afterCalls (before ++ behind)
  source : ∀ k event s h, calls[k]? = some (.addSource event s) →
    (Plan.addSource event s (p.afterCalls (calls.take k))).1 = .ok h →
    h.event = event ∧ p.Adds PlanCall.newSource? calls k h s
  /-- An operator has its rank and its bits from what was there before it, and keeps them. -/
  operator : ∀ k event op h, calls[k]? = some (.addOperator event op) →
    (Plan.addOperator event op (p.afterCalls (calls.take k))).1 = .ok h →
    ∃ e rank, (p.afterCalls (calls.take k)).events[event]? = some e ∧ e.rankFor op = .ok rank ∧
      h.event = event ∧ p.Adds PlanCall.newOperator? calls k h (e.ranked op rank) ∧
      ∀ l, k < l → (p.afterCalls (calls.take l)).operator? h = some (e.ranked op rank)
  sources : Housed PlanCall.newSource? Source.moduleIndex p calls g.source?
    fun event => g.slots[event]?.map Slot.sources
  operators : Housed PlanCall.newOperator? RankedOperator.rank p calls g.operator?
    fun event => g.slots[event]?.map Slot.operators

theorem PlanCall.apply_rejected {p : Plan} {c : PlanCall} {err : Error}
    (h : c.answer? p = some (.error err)) : c.apply p = p := by
  cases c with
  | alloc change => cases h
  | addSource event s => exact Plan.addSource_error (Prod.ext (Option.some.inj h) rfl)
  | addOperator event op => exact Plan.addOperator_error (Prod.ext (Option.some.inj h) rfl)

/-- Whatever calls made a plan: in its graph each handle that was returned names the node that was
added then, with the rank that it got then, and the nodes of an event are those that were added to
it, sources by module and operators by rank, in the order of their additions where these are
equal. -/
theorem assembled_build (arena : Arena) (strategy : FillStrategy) (calls : List PlanCall)
    (volume : Volume) : Assembled (Plan.withArena arena strategy) calls
      (((Plan.withArena arena strategy).afterCalls calls).build volume) := by
  have hp : (Plan.withArena arena strategy).events =
      List.replicate Plan.maxEvents EventPlan.empty := rfl
  generalize Plan.withArena arena strategy = p at hp
  refine ⟨?_, ?_, ?_, ?_, ?_⟩
  · intro before c behind err herr
    rw [Plan.afterCalls_append, Plan.afterCalls_append]
    change (c.apply (p.afterCalls before)).afterCalls behind = _
    rw [PlanCall.apply_rejected herr]
  · intro k event s h hc hr
    rcases hadd : Plan.addSource event s (p.afterCalls (calls.take k)) with ⟨r, p'⟩
    obtain rfl : r = .ok h := by rw [hadd] at hr; exact hr
    obtain ⟨e, e', he, hroom, rfl, -⟩ := Plan.addSource_spec hadd
    have hlt := Plan.event_lt (Growing.length_events hp _) he
    exact ⟨Handle.event_new hlt hroom, _, hc, by rw [PlanCall.newSource?, hadd]⟩
  · intro k event op h hc hr
    rcases hadd : Plan.addOperator event op (p.afterCalls (calls.take k)) with ⟨r, p'⟩
    obtain rfl : r = .ok h := by rw [hadd] at hr; exact hr
    obtain ⟨e, rank, he, hevent, -, hrank, hop, -⟩ :=
      Plan.operator?_addOperator (Growing.length_events hp _) hadd
    have hk : p.Adds PlanCall.newOperator? calls k h (e.ranked op rank) :=
      ⟨_, hc, by rw [PlanCall.newOperator?, hadd]; simp only [hop, Option.map_some]⟩
    refine ⟨e, rank, he, hrank, hevent, hk, fun l hl => ?_⟩
    exact (growing_operators.at?_handle hp (calls.take l) h _).2 ⟨k, hk.take hl⟩
  · have hfound : ((p.afterCalls calls).build volume).source? =
        fun h => (p.afterCalls calls).at? EventPlan.sources h.event h.index :=
      funext fun h => Plan.source?_build _ volume h
    simp only [hfound, Plan.sources_build]
    exact growing_sources.housed hp Source.moduleIndex calls
  · have hfound : ((p.afterCalls calls).build volume).operator? =
        fun h => (p.afterCalls calls).at? EventPlan.operators h.event h.index :=
      funext fun h => Plan.operator?_build _ volume h
    simp only [hfound, Plan.operators_build]
    exact growing_operators.housed hp RankedOperator.rank calls

end Readout
