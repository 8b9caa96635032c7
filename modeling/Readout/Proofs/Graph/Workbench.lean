import Mathlib.Data.List.Flatten
import Readout.Proofs.Graph.Ranks
import Readout.Proofs.Operator.Recipe
import Readout.Proofs.Source.Layout

/-!
# Making plans

A workbench is a plan together with what was made for it: pipes without a node, and nodes that
were not added yet. Each call takes blocks from the arena of the plan, makes a node from pipes that
are there, or moves a waiting node into an event. In every state that calls lead to, all spans that
were taken are apart, and each operator reads pipes and elements of pipes that are there, none of
them its own.
-/
namespace Readout

structure Workbench where
  plan : Plan
  /-- Pipes that no node writes. -/
  pipes : List Pipe
  /-- Sources that wait to be added. -/
  sources : List Source
  operators : List Operator

/-- Waiting nodes are named by their position, the one made last comes first. -/
inductive BuildCall
  | pushPipe (length : Nat) (lower upper : Value)
  | reserve (size align : Nat)
  | assign (p : Span) (vs : List Value)
  | makeSource (r : SourceRecipe)
  | makeOperator (r : Recipe)
  | addSource (event position : Nat)
  | addOperator (event position : Nat) (gate : Option Nat)

namespace Workbench

def new (capacity : Nat) (strategy : FillStrategy) : Workbench :=
  ⟨Plan.new capacity strategy, [], [], []⟩

def allSources (w : Workbench) : List Source := w.sources ++ w.plan.events.flatMap EventPlan.sources

def allOperators (w : Workbench) : List Operator :=
  w.operators ++ w.plan.events.flatMap fun e => e.operators.map RankedOperator.operator

def taps (w : Workbench) : List Pipe :=
  w.pipes ++ w.allSources.flatMap Source.outputs ++ w.allOperators.flatMap Operator.outputs

def owned (w : Workbench) : List Span :=
  w.pipes.flatMap Pipe.spans ++ w.allSources.flatMap Source.owned ++
    w.allOperators.flatMap Operator.owned

def alloc {α : Type} (w : Workbench) (x : Alloc α) (k : Workbench → α → Workbench) : Workbench :=
  let (r, a) := x w.plan.arena
  let w := { w with plan := { w.plan with arena := a } }
  match r with
  | .ok v => k w v
  | .error _ => w

def extend (w : Workbench) (x : Planning Handle) (k : Workbench → Workbench) : Workbench :=
  let (r, p) := x w.plan
  let w := { w with plan := p }
  match r with
  | .ok _ => k w
  | .error _ => w

/-- Every input of a recipe is a pipe that is there or an element of one. -/
def Offers (w : Workbench) (inputs : List Pipe) : Prop := ∀ v ∈ inputs, ∃ p ∈ w.taps, v ∈ p.views

instance (w : Workbench) (inputs : List Pipe) : Decidable (w.Offers inputs) :=
  inferInstanceAs (Decidable (∀ v ∈ inputs, ∃ p ∈ w.taps, v ∈ p.views))

def apply (w : Workbench) : BuildCall → Workbench
  | .pushPipe length lower upper =>
    w.alloc (Pipe.push length lower upper) fun w p => { w with pipes := p :: w.pipes }
  | .reserve size align => w.alloc (Arena.pushSize size align) fun w _ => w
  | .assign p vs => w.alloc (Arena.assign p vs) fun w _ => w
  | .makeSource r => w.alloc r.make fun w s => { w with sources := s :: w.sources }
  | .makeOperator r =>
    if w.Offers r.inputs then w.alloc r.make fun w op => { w with operators := op :: w.operators }
    else w
  | .addSource event position =>
    match w.sources[position]? with
    | none => w
    | some s =>
      w.extend (Plan.addSource event s) fun w =>
        { w with sources := w.sources.eraseIdx position }
  | .addOperator event position gate =>
    match w.operators[position]? with
    | none => w
    | some op =>
      w.extend (Plan.addOperator event { op with gate := gate }) fun w =>
        { w with operators := w.operators.eraseIdx position }

/-- What a sequence of calls makes of an empty workbench. -/
def after (capacity : Nat) (strategy : FillStrategy) (calls : List BuildCall) : Workbench :=
  calls.foldl apply (new capacity strategy)

end Workbench

namespace Operator

/-- An operator as it stands in an event: with its gate, and with its bits handed out. -/
def seated (op : Operator) (gate : Option Nat) (bit : Nat) : Operator :=
  { op with gate := gate, kind := op.kind.withFirstBit bit }

@[simp] theorem owned_seated (op : Operator) (gate : Option Nat) (bit : Nat) :
    (op.seated gate bit).owned = op.owned := by
  simp [owned, seated]

theorem shaped_seated (op : Operator) (gate : Option Nat) (bit : Nat) :
    (op.seated gate bit).Shaped ↔ op.Shaped :=
  Kind.shaped_withFirstBit op.kind bit op.inputs op.outputs

/-- An operator that keeps its sizes and reads pipes that are there, apart from what it owns. -/
structure Connected (op : Operator) (taps : List Pipe) : Prop where
  outputs_even : ∀ p ∈ op.outputs, p.Even
  shaped : op.Shaped
  opened_eq : op.kind.opened = false
  inputs : ∀ v ∈ op.inputs, ∃ p ∈ taps, v ∈ p.views ∧ ∀ s ∈ op.owned, ∀ t ∈ p.spans, s.Apart t

theorem Connected.mono {op : Operator} {taps taps' : List Pipe} (h : op.Connected taps)
    (ht : taps ⊆ taps') : op.Connected taps' := by
  refine ⟨h.outputs_even, h.shaped, h.opened_eq, fun v hv => ?_⟩
  obtain ⟨p, hp, hpv⟩ := h.inputs v hv
  exact ⟨p, ht hp, hpv⟩

theorem Connected.seated {op : Operator} {taps : List Pipe} (h : op.Connected taps)
    (gate : Option Nat) (bit : Nat) : (op.seated gate bit).Connected taps := by
  have hopened : (op.seated gate bit).kind.opened = false :=
    (op.kind.opened_withFirstBit bit).trans h.opened_eq
  refine ⟨h.outputs_even, (op.shaped_seated gate bit).2 h.shaped, hopened, fun v hv => ?_⟩
  rw [owned_seated]
  exact h.inputs v hv

end Operator

theorem perm_flatMap_set {α β : Type} {f : α → List β} {xs : List α} {i : Nat} {x x' : α}
    {zs : List β} (hx : xs[i]? = some x) (hf : (f x').Perm (zs ++ f x)) :
    ((xs.set i x').flatMap f).Perm (zs ++ xs.flatMap f) := by
  induction xs generalizing i with
  | nil => cases hx
  | cons y ys ih =>
    cases i with
    | zero =>
      obtain rfl : y = x := Option.some.inj hx
      simpa using hf.append_right (ys.flatMap f)
    | succ i =>
      have h := (ih hx).append_left (f y)
      rw [List.set_cons_succ, List.flatMap_cons, List.flatMap_cons]
      exact h.trans (List.perm_append_comm_assoc _ _ _)

theorem perm_flatMap_set_same {α β : Type} {f : α → List β} {xs : List α} {i : Nat} {x x' : α}
    (hx : xs[i]? = some x) (hf : f x' = f x) : ((xs.set i x').flatMap f).Perm (xs.flatMap f) := by
  have h : (f x').Perm ([] ++ f x) := by rw [hf, List.nil_append]
  exact perm_flatMap_set hx h

namespace Plan

variable {p p' : Plan} {index : Nat} {c : Error} {h : Handle}

theorem event_apply (index : Nat) (p : Plan) :
    event index p =
      match p.events[index]? with
      | none => (.error (.build (.eventIndex index)), p)
      | some e => (.ok e, p) := by
  have hget : (get : Planning Plan) p = (.ok p, p) := rfl
  rw [event, bind_apply, hget]
  dsimp only
  cases p.events[index]? <;> rfl

theorem addSource_apply (index : Nat) (s : Source) (p : Plan) :
    addSource index s p =
      if maxModules ≤ s.moduleIndex then (.error (.build (.moduleIndex s.moduleIndex)), p)
      else
        match p.events[index]? with
        | none => (.error (.build (.eventIndex index)), p)
        | some e =>
          match e.addSource s with
          | .error c => (.error c, p)
          | .ok e' =>
            (.ok (Handle.new index e.sources.length),
              { p with events := p.events.set index e' }) := by
  rw [addSource]
  split
  · rfl
  · change (event index >>= _) p = _
    rw [bind_apply, event_apply]
    cases p.events[index]? with
    | none => rfl
    | some e =>
      dsimp only
      rw [bind_apply]
      cases e.addSource s <;> rfl

theorem addOperator_apply (index : Nat) (op : Operator) (p : Plan) :
    addOperator index op p =
      match p.events[index]? with
      | none => (.error (.build (.eventIndex index)), p)
      | some e =>
        match e.addOperator op with
        | .error c => (.error c, p)
        | .ok e' =>
          (.ok (Handle.new index e.operators.length),
            { p with events := p.events.set index e' }) := by
  rw [addOperator, bind_apply, event_apply]
  cases p.events[index]? with
  | none => rfl
  | some e =>
    dsimp only
    rw [bind_apply]
    cases e.addOperator op <;> rfl

theorem addSource_error {s : Source} (hr : addSource index s p = (.error c, p')) : p' = p := by
  rw [addSource_apply] at hr
  split at hr
  · exact (Prod.mk.inj hr).2.symm
  · split at hr
    · exact (Prod.mk.inj hr).2.symm
    · split at hr <;> cases hr
      rfl

theorem addSource_ok {s : Source} (hr : addSource index s p = (.ok h, p')) :
    ∃ e e', p.events[index]? = some e ∧ e.addSource s = .ok e' ∧
      p' = { p with events := p.events.set index e' } := by
  rw [addSource_apply] at hr
  split at hr
  · cases hr
  · split at hr
    · cases hr
    · next e he =>
      split at hr
      · cases hr
      · next e' he' => exact ⟨e, e', he, he', (Prod.mk.inj hr).2.symm⟩

theorem addOperator_error {op : Operator} (hr : addOperator index op p = (.error c, p')) :
    p' = p := by
  rw [addOperator_apply] at hr
  split at hr
  · exact (Prod.mk.inj hr).2.symm
  · split at hr <;> cases hr
    rfl

theorem addOperator_ok {op : Operator} (hr : addOperator index op p = (.ok h, p')) :
    ∃ e e', p.events[index]? = some e ∧ e.addOperator op = .ok e' ∧
      p' = { p with events := p.events.set index e' } := by
  rw [addOperator_apply] at hr
  split at hr
  · cases hr
  · next e he =>
    split at hr
    · cases hr
    · next e' he' => exact ⟨e, e', he, he', (Prod.mk.inj hr).2.symm⟩

end Plan

namespace Workbench

/-- What holds of a workbench that calls lead to. -/
structure Sound (w : Workbench) : Prop where
  placed : Placed 0 w.plan.arena.used w.owned
  fits : w.plan.arena.used ≤ w.plan.arena.capacity
  room : w.plan.arena.capacity = w.plan.arena.store.slots * Arena.valueSize
  pipes_even : ∀ p ∈ w.pipes, p.Even
  sources : ∀ s ∈ w.allSources, s.Made
  operators : ∀ op ∈ w.allOperators, op.Connected w.taps
  events : ∀ e ∈ w.plan.events, e.Ordered

variable {w w' : Workbench} {α : Type} {own : α → List Span} {φ : α → Prop}

theorem spans_subset_owned {p : Pipe} (hp : p ∈ w.taps) : p.spans ⊆ w.owned := by
  intro t ht
  rcases List.mem_append.1 hp with hp | hp
  · rcases List.mem_append.1 hp with hp | hp
    · exact List.mem_append_left _ (List.mem_append_left _ (List.mem_flatMap.2 ⟨p, hp, ht⟩))
    · obtain ⟨s, hs, hp⟩ := List.mem_flatMap.1 hp
      refine List.mem_append_left _ (List.mem_append_right _ (List.mem_flatMap.2 ⟨s, hs, ?_⟩))
      exact List.mem_append_left _ (List.mem_flatMap.2 ⟨p, hp, ht⟩)
  · obtain ⟨op, ho, hp⟩ := List.mem_flatMap.1 hp
    refine List.mem_append_right _ (List.mem_flatMap.2 ⟨op, ho, ?_⟩)
    exact List.mem_append_left _ (List.mem_append_left _ (List.mem_flatMap.2 ⟨p, hp, ht⟩))

theorem taps_subset (hp : w.pipes ⊆ w'.pipes) (hs : w.allSources ⊆ w'.allSources)
    (ho : w.allOperators ⊆ w'.allOperators) : w.taps ⊆ w'.taps := by
  intro p hm
  rw [taps, List.mem_append, List.mem_append, List.mem_flatMap, List.mem_flatMap] at hm ⊢
  rcases hm with (hm | ⟨s, hm, hps⟩) | ⟨op, hm, hpo⟩
  · exact Or.inl (Or.inl (hp hm))
  · exact Or.inl (Or.inr ⟨s, hs hm, hps⟩)
  · exact Or.inr ⟨op, ho hm, hpo⟩

theorem Sound.even_of_mem_taps (h : w.Sound) {p : Pipe} (hp : p ∈ w.taps) : p.Even := by
  rcases List.mem_append.1 hp with hp | hp
  · rcases List.mem_append.1 hp with hp | hp
    · exact h.pipes_even p hp
    · obtain ⟨s, hs, hp⟩ := List.mem_flatMap.1 hp
      exact (h.sources s hs).outputs_even p hp
  · obtain ⟨op, ho, hp⟩ := List.mem_flatMap.1 hp
    exact (h.operators op ho).outputs_even p hp

theorem sound_new (capacity : Nat) (strategy : FillStrategy) : (new capacity strategy).Sound := by
  have he : ∀ e ∈ (new capacity strategy).plan.events, e = EventPlan.empty := fun e h =>
    List.eq_of_mem_replicate h
  have hs : (new capacity strategy).allSources = [] := by
    simp [allSources, new, Plan.new, EventPlan.empty]
  have ho : (new capacity strategy).allOperators = [] := by
    simp [allOperators, new, Plan.new, EventPlan.empty]
  refine ⟨?_, Nat.zero_le _, rfl, by simp [new], by simp [hs], by simp [ho], fun e h => ?_⟩
  · rw [owned, hs, ho]
    exact Placed.nil (Nat.le_refl 0)
  · rw [he e h]
    exact EventPlan.ordered_empty

theorem Sound.withArena (h : w.Sound) {a : Arena} (ha : w.plan.arena.Onward a) :
    Sound { w with plan := { w.plan with arena := a } } :=
  ⟨h.placed.mono ha.used_le, ha.capacity_eq ▸ ha.fits h.fits,
    by rw [ha.capacity_eq, ha.slots_eq]; exact h.room, h.pipes_even, h.sources, h.operators,
    h.events⟩

theorem Sound.alloc (h : w.Sound) {x : Alloc α} (hx : Takes [] x own φ)
    {k : Workbench → α → Workbench}
    (hk : ∀ a v, φ v → Sound { w with plan := { w.plan with arena := a } } →
      Placed 0 a.used (own v ++ w.owned) →
      (k { w with plan := { w.plan with arena := a } } v).Sound) : (w.alloc x k).Sound := by
  have ho := hx.onward w.plan.arena
  have hr := hx.result w.plan.arena
  have hp := hx.placed 0 w.owned w.plan.arena
  rw [Workbench.alloc]
  rcases hxa : x w.plan.arena with ⟨c | v, a⟩
  · rw [hxa] at ho
    exact h.withArena ho
  · rw [hxa] at ho hr hp
    exact hk a v (hr v rfl) (h.withArena ho) (hp v h.placed rfl)

theorem Sound.extend (h : w.Sound) {x : Planning Handle} {k : Workbench → Workbench}
    (herror : ∀ c p, x w.plan = (.error c, p) → p = w.plan)
    (hk : ∀ n p, x w.plan = (.ok n, p) → (k { w with plan := p }).Sound) :
    (w.extend x k).Sound := by
  rw [Workbench.extend]
  rcases hx : x w.plan with ⟨c | n, p⟩
  · obtain rfl := herror c p hx
    exact h
  · exact hk n p hx

theorem Sound.event_apart (h : w.Sound) {e : EventPlan} (he : e ∈ w.plan.events) :
    (e.outputs.map Pipe.data).Pairwise Span.Apart := by
  have hdata : ∀ ps : List Pipe, (ps.map Pipe.data).Sublist (ps.flatMap Pipe.spans) := by
    intro ps
    induction ps with
    | nil => exact List.Sublist.refl []
    | cons p ps ih => exact List.Sublist.append (List.singleton_sublist.2 List.mem_cons_self) ih
  have hs : e.sources.Sublist w.allSources :=
    (List.sublist_flatten_of_mem (List.mem_map_of_mem he)).trans (List.sublist_append_right _ _)
  have ho : (e.operators.map RankedOperator.operator).Sublist w.allOperators := by
    refine List.Sublist.trans ?_ (List.sublist_append_right w.operators _)
    exact List.sublist_flatten_of_mem (List.mem_map.2 ⟨e, he, rfl⟩)
  have hsources : (e.sources.flatMap fun s => s.outputs.map Pipe.data).Sublist
      (w.allSources.flatMap Source.owned) :=
    (hs.flatMap _).trans <| List.Sublist.flatMap_right _ fun s _ =>
      (hdata s.outputs).trans (List.sublist_append_left _ _)
  have hoperators : ((e.operators.map RankedOperator.operator).flatMap fun op =>
      op.outputs.map Pipe.data).Sublist (w.allOperators.flatMap Operator.owned) :=
    (ho.flatMap _).trans <| List.Sublist.flatMap_right _ fun op _ =>
      (hdata op.outputs).trans ((List.sublist_append_left _ _).trans (List.sublist_append_left _ _))
  have heq : e.outputs.map Pipe.data = (e.sources.flatMap fun s => s.outputs.map Pipe.data) ++
      (e.operators.map RankedOperator.operator).flatMap fun op => op.outputs.map Pipe.data := by
    simp [EventPlan.outputs, List.map_flatMap, List.flatMap_map]
  rw [heq]
  refine h.placed.apart.sublist (List.Sublist.append ?_ hoperators)
  exact hsources.trans (List.sublist_append_right _ _)

theorem owned_perm (hp : w'.pipes = w.pipes) (hs : w'.allSources.Perm w.allSources)
    (ho : (w'.allOperators.flatMap Operator.owned).Perm (w.allOperators.flatMap Operator.owned)) :
    w'.owned.Perm w.owned := by
  rw [owned, owned, hp]
  exact ((hs.flatMap_right Source.owned).append_left _).append ho

theorem taps_perm (hp : w'.pipes = w.pipes) (hs : w'.allSources.Perm w.allSources)
    (ho : (w'.allOperators.flatMap Operator.outputs).Perm
      (w.allOperators.flatMap Operator.outputs)) : w'.taps.Perm w.taps := by
  rw [taps, taps, hp]
  exact ((hs.flatMap_right Source.outputs).append_left _).append ho

theorem Sound.moved (h : w.Sound) (harena : w'.plan.arena = w.plan.arena)
    (howned : w'.owned.Perm w.owned) (hpipes : w'.pipes = w.pipes) (htaps : w.taps ⊆ w'.taps)
    (hsources : w'.allSources ⊆ w.allSources)
    (hoperators : ∀ op ∈ w'.allOperators, op ∈ w.allOperators ∨ op.Connected w.taps)
    (hevents : ∀ e ∈ w'.plan.events, e.Ordered) : w'.Sound := by
  refine ⟨?_, ?_, ?_, ?_, fun s hs => h.sources s (hsources hs), fun op ho => ?_, hevents⟩
  · rw [harena]
    exact h.placed.perm howned.symm
  · rw [harena]
    exact h.fits
  · rw [harena]
    exact h.room
  · rw [hpipes]
    exact h.pipes_even
  · rcases hoperators op ho with ho | ho
    · exact (h.operators op ho).mono htaps
    · exact ho.mono htaps

theorem addSource_perm {position event : Nat} {s : Source} {e e' : EventPlan}
    (hs : w.sources[position]? = some s) (he : w.plan.events[event]? = some e)
    (ha : e.addSource s = .ok e')
    (hw : w' = { w with
      plan := { w.plan with events := w.plan.events.set event e' }
      sources := w.sources.eraseIdx position }) :
    w'.allSources.Perm w.allSources ∧ w'.allOperators.Perm w.allOperators := by
  obtain ⟨hlt, hget⟩ := List.getElem?_eq_some_iff.1 hs
  have hadd := EventPlan.addSource_eq_ok ha
  have hsplit : (s :: w.sources.eraseIdx position).Perm w.sources :=
    hget ▸ List.getElem_cons_eraseIdx_perm hlt
  have hset : ((w.plan.events.set event e').flatMap EventPlan.sources).Perm
      ([s] ++ w.plan.events.flatMap EventPlan.sources) := by
    refine perm_flatMap_set he ?_
    rw [hadd]
    exact List.perm_append_comm
  rw [hw]
  constructor
  · exact (hset.append_left _).trans (List.perm_middle.trans (hsplit.append_right _))
  · exact List.Perm.append_left _ (perm_flatMap_set_same he (by rw [hadd]))

theorem addOperator_perm {position event : Nat} {op : Operator} {gate : Option Nat}
    {e e' : EventPlan} (ho : w.operators[position]? = some op)
    (he : w.plan.events[event]? = some e) (ha : e.addOperator { op with gate := gate } = .ok e')
    (hw : w' = { w with
      plan := { w.plan with events := w.plan.events.set event e' }
      operators := w.operators.eraseIdx position }) :
    w'.allSources.Perm w.allSources ∧ ∃ rest, w.allOperators.Perm (op :: rest) ∧
      w'.allOperators.Perm (op.seated gate e.bitCount :: rest) := by
  obtain ⟨hlt, hget⟩ := List.getElem?_eq_some_iff.1 ho
  obtain ⟨rank, -, hadd⟩ := EventPlan.addOperator_eq_ok ha
  have hset : ((w.plan.events.set event e').flatMap fun e =>
      e.operators.map RankedOperator.operator).Perm ([op.seated gate e.bitCount] ++
        w.plan.events.flatMap fun e => e.operators.map RankedOperator.operator) := by
    refine perm_flatMap_set he ?_
    rw [hadd, List.map_append]
    exact List.perm_append_comm
  refine ⟨?_, w.operators.eraseIdx position ++
    w.plan.events.flatMap fun e => e.operators.map RankedOperator.operator, ?_, ?_⟩
  · rw [hw]
    exact List.Perm.append_left _ (perm_flatMap_set_same he (by rw [hadd]))
  · exact (hget ▸ List.getElem_cons_eraseIdx_perm hlt).symm.append_right _
  · rw [hw]
    exact (hset.append_left _).trans List.perm_middle

theorem Sound.addSource (h : w.Sound) {position event : Nat} {s : Source} {e e' : EventPlan}
    (hs : w.sources[position]? = some s) (he : w.plan.events[event]? = some e)
    (ha : e.addSource s = .ok e')
    (hw : w' = { w with
      plan := { w.plan with events := w.plan.events.set event e' }
      sources := w.sources.eraseIdx position }) : w'.Sound := by
  obtain ⟨hall, hops⟩ := addSource_perm hs he ha hw
  have hp : w'.pipes = w.pipes := by rw [hw]
  refine h.moved (by rw [hw]) (owned_perm hp hall (hops.flatMap_right _)) hp
    (taps_perm hp hall (hops.flatMap_right _)).symm.subset hall.subset
    (fun op ho => Or.inl (hops.subset ho)) fun f hf => ?_
  rw [hw] at hf
  rcases List.mem_or_eq_of_mem_set hf with hf | rfl
  · exact h.events f hf
  · exact (h.events e (List.mem_of_getElem? he)).addSource ha

theorem flatMap_seated_perm {op : Operator} {gate : Option Nat} {bit : Nat} {rest : List Operator}
    {β : Type} {f : Operator → List β} (hold : w.allOperators.Perm (op :: rest))
    (hnew : w'.allOperators.Perm (op.seated gate bit :: rest))
    (hf : f (op.seated gate bit) = f op) :
    (w'.allOperators.flatMap f).Perm (w.allOperators.flatMap f) := by
  have hn := hnew.flatMap_right f
  rw [List.flatMap_cons, hf] at hn
  exact hn.trans (hold.flatMap_right f).symm

theorem Sound.addOperator (h : w.Sound) {position event : Nat} {op : Operator}
    {gate : Option Nat} {e e' : EventPlan} (ho : w.operators[position]? = some op)
    (he : w.plan.events[event]? = some e) (ha : e.addOperator { op with gate := gate } = .ok e')
    (hw : w' = { w with
      plan := { w.plan with events := w.plan.events.set event e' }
      operators := w.operators.eraseIdx position }) : w'.Sound := by
  obtain ⟨hall, rest, hold, hnew⟩ := addOperator_perm ho he ha hw
  have hp : w'.pipes = w.pipes := by rw [hw]
  have howned := flatMap_seated_perm hold hnew (op.owned_seated gate e.bitCount)
  have houtputs := flatMap_seated_perm (f := Operator.outputs) hold hnew rfl
  have hconnected := h.operators op (hold.symm.subset List.mem_cons_self)
  refine h.moved (by rw [hw]) (owned_perm hp hall howned) hp
    (taps_perm hp hall houtputs).symm.subset hall.subset (fun o hm => ?_) fun f hf => ?_
  · rcases List.mem_cons.1 (hnew.subset hm) with rfl | hm
    · exact Or.inr (hconnected.seated gate e.bitCount)
    · exact Or.inl (hold.symm.subset (List.mem_cons_of_mem op hm))
  · rw [hw] at hf
    rcases List.mem_or_eq_of_mem_set hf with hf | rfl
    · exact h.events f hf
    · have hmem := List.mem_of_getElem? he
      exact (h.events e hmem).addOperator (h.event_apart hmem) ha

/-- A new operator is apart from all that was there, so from everything that it reads. -/
theorem Sound.connected (h : w.Sound) {inputs : List Pipe} {n : Option Nat} {op : Operator}
    {hi : Nat} (ho : w.Offers inputs) (hm : op.MadeFrom inputs n)
    (hp : Placed 0 hi (op.owned ++ w.owned)) : op.Connected w.taps := by
  refine ⟨hm.outputs_even, hm.shaped fun v hv => ?_, hm.opened_eq, fun v hv => ?_⟩
  · obtain ⟨p, hp, hpv⟩ := ho v hv
    exact Pipe.even_of_mem_views (h.even_of_mem_taps hp) hpv
  · rw [hm.inputs_eq] at hv
    obtain ⟨p, hpt, hpv⟩ := ho v hv
    refine ⟨p, hpt, hpv, fun s hs t ht => ?_⟩
    exact (List.pairwise_append.1 hp.apart).2.2 s hs t (spans_subset_owned hpt ht)

theorem Sound.apply (h : w.Sound) (c : BuildCall) : (w.apply c).Sound := by
  cases c with
  | pushPipe length lower upper =>
    rw [Workbench.apply]
    refine h.alloc (Pipe.takes_push length lower upper) fun a p hp hs hplaced => ?_
    refine ⟨?_, hs.fits, hs.room, ?_, hs.sources, fun op ho => (hs.operators op ho).mono ?_,
      hs.events⟩
    · simpa [owned, allSources, allOperators] using hplaced
    · exact List.forall_mem_cons.2 ⟨hp.1, hs.pipes_even⟩
    · exact taps_subset (List.subset_cons_self p _) (List.Subset.refl _) (List.Subset.refl _)
  | reserve size align =>
    rw [Workbench.apply]
    exact h.alloc (Arena.takes_pushSize size align) fun a _ _ hs _ => hs
  | assign p vs =>
    rw [Workbench.apply]
    exact h.alloc (Takes.assign p vs) fun a _ _ hs _ => hs
  | makeSource r =>
    rw [Workbench.apply]
    refine h.alloc r.takes_make fun a s hm hs hplaced => ?_
    refine ⟨hplaced.perm ?_, hs.fits, hs.room, hs.pipes_even,
      List.forall_mem_cons.2 ⟨hm.made, hs.sources⟩, fun op ho => (hs.operators op ho).mono ?_,
      hs.events⟩
    · rw [owned, owned, List.append_assoc, List.append_assoc]
      refine (List.perm_append_comm_assoc s.owned _ _).trans ?_
      rw [← List.append_assoc s.owned]
      exact List.Perm.refl _
    · exact taps_subset (List.Subset.refl _) (List.subset_cons_self s _) (List.Subset.refl _)
  | makeOperator r =>
    rw [Workbench.apply]
    split
    · next hr =>
      refine h.alloc r.takes_make fun a op hm hs hplaced => ?_
      have hsub : w.taps ⊆ taps { w with operators := op :: w.operators } :=
        taps_subset (List.Subset.refl _) (List.Subset.refl _) (List.subset_cons_self op _)
      refine ⟨hplaced.perm ?_, hs.fits, hs.room, hs.pipes_even, hs.sources,
        List.forall_mem_cons.2 ⟨(h.connected hr hm hplaced).mono hsub, fun op' ho =>
          (hs.operators op' ho).mono hsub⟩, hs.events⟩
      exact List.perm_append_comm_assoc op.owned _ _
    · exact h
  | addSource event position =>
    rw [Workbench.apply]
    split
    · exact h
    · next s hs =>
      refine h.extend (fun c p => Plan.addSource_error) fun n p hp => ?_
      obtain ⟨e, e', he, ha, rfl⟩ := Plan.addSource_ok hp
      exact h.addSource hs he ha rfl
  | addOperator event position gate =>
    rw [Workbench.apply]
    split
    · exact h
    · next op ho =>
      refine h.extend (fun c p => Plan.addOperator_error) fun n p hp => ?_
      obtain ⟨e, e', he, ha, rfl⟩ := Plan.addOperator_ok hp
      exact h.addOperator ho he ha rfl

theorem Sound.makeSource (h : w.Sound) {r : SourceRecipe} {s : Source} {a : Arena}
    (hr : r.make w.plan.arena = (.ok s, a)) :
    Sound { w with plan := { w.plan with arena := a }, sources := s :: w.sources } := by
  have hsound := h.apply (.makeSource r)
  rw [Workbench.apply, Workbench.alloc, hr] at hsound
  exact hsound

theorem Sound.makeOperator (h : w.Sound) {r : Recipe} {op : Operator} {a : Arena}
    (ho : w.Offers r.inputs) (hr : r.make w.plan.arena = (.ok op, a)) :
    Sound { w with plan := { w.plan with arena := a }, operators := op :: w.operators } := by
  have hsound := h.apply (.makeOperator r)
  rw [Workbench.apply, if_pos ho, Workbench.alloc, hr] at hsound
  exact hsound

theorem after_induction {Q : Workbench → Prop} {capacity : Nat} {strategy : FillStrategy}
    (hnew : Q (new capacity strategy)) (happly : ∀ w c, Q w → Q (w.apply c))
    (calls : List BuildCall) : Q (after capacity strategy calls) :=
  List.foldlRecOn calls Workbench.apply hnew fun w hw c _ => happly w c hw

theorem sound_after (capacity : Nat) (strategy : FillStrategy) (calls : List BuildCall) :
    (after capacity strategy calls).Sound :=
  after_induction (sound_new capacity strategy) (fun _ c h => h.apply c) calls

/-- A source that is added changes its event only, and one that is refused changes nothing. -/
theorem plan_addSource (w : Workbench) (event position : Nat) :
    (w.apply (.addSource event position)).plan = w.plan ∨
      ∃ s e e', w.plan.events[event]? = some e ∧ e.addSource s = .ok e' ∧
        (w.apply (.addSource event position)).plan =
          { w.plan with events := w.plan.events.set event e' } := by
  rw [apply]
  split
  · exact .inl rfl
  · next s _ =>
    rw [extend]
    rcases hx : Plan.addSource event s w.plan with ⟨c | v, p⟩
    · exact .inl (Plan.addSource_error hx)
    · obtain ⟨e, e', he, hadd, hp⟩ := Plan.addSource_ok hx
      exact .inr ⟨s, e, e', he, hadd, hp⟩

theorem plan_addOperator (w : Workbench) (event position : Nat) (gate : Option Nat) :
    (w.apply (.addOperator event position gate)).plan = w.plan ∨
      ∃ op e e', w.plan.events[event]? = some e ∧ e.addOperator op = .ok e' ∧
        (w.apply (.addOperator event position gate)).plan =
          { w.plan with events := w.plan.events.set event e' } := by
  rw [apply]
  split
  · exact .inl rfl
  · next op _ =>
    rw [extend]
    rcases hx : Plan.addOperator event { op with gate := gate } w.plan with ⟨c | v, p⟩
    · exact .inl (Plan.addOperator_error hx)
    · obtain ⟨e, e', he, hadd, hp⟩ := Plan.addOperator_ok hx
      exact .inr ⟨_, e, e', he, hadd, hp⟩

theorem slots_alloc {α : Type} {x : Alloc α} {own : α → List Span} {φ : α → Prop}
    (hx : Takes [] x own φ) {k : Workbench → α → Workbench} (hk : ∀ w v, (k w v).plan = w.plan)
    (w : Workbench) : (w.alloc x k).plan.arena.store.slots = w.plan.arena.store.slots := by
  have honward := hx.onward w.plan.arena
  rw [alloc]
  rcases hxa : x w.plan.arena with ⟨c | v, a⟩ <;> rw [hxa] at honward
  · exact honward.slots_eq
  · dsimp only
    rw [hk]
    exact honward.slots_eq

theorem slots_apply (w : Workbench) (c : BuildCall) :
    (w.apply c).plan.arena.store.slots = w.plan.arena.store.slots := by
  cases c with
  | pushPipe length lower upper =>
    rw [apply, slots_alloc (Pipe.takes_push length lower upper)]
    exact fun _ _ => rfl
  | reserve size align => exact slots_alloc (Arena.takes_pushSize size align) (fun _ _ => rfl) w
  | assign p vs => exact slots_alloc (Takes.assign p vs) (fun _ _ => rfl) w
  | makeSource r =>
    rw [apply, slots_alloc r.takes_make]
    exact fun _ _ => rfl
  | makeOperator r =>
    rw [apply]
    split
    · rw [slots_alloc r.takes_make]
      exact fun _ _ => rfl
    · rfl
  | addSource event position =>
    obtain h | ⟨s, e, e', -, -, h⟩ := w.plan_addSource event position <;> rw [h]
  | addOperator event position gate =>
    obtain h | ⟨op, e, e', -, -, h⟩ := w.plan_addOperator event position gate <;> rw [h]

/-- The arena of a workbench can be addressed with 32-bit offsets. -/
theorem slots_after_lt (capacity : Nat) (strategy : FillStrategy) (calls : List BuildCall) :
    (after capacity strategy calls).plan.arena.store.slots < Word.size 32 := by
  refine after_induction (Q := fun w => w.plan.arena.store.slots < Word.size 32) ?_
    (fun w c h => ?_) calls
  · change min capacity ((2 ^ 32 - 1) * 8) / 8 < 2 ^ 32
    omega
  · rwa [slots_apply]

/-- A pipe that can be read is an output of an operator, or apart from all that it owns. -/
theorem Sound.tap_cases (h : w.Sound) {a : Operator} (ha : a ∈ w.allOperators) {p : Pipe}
    (hp : p ∈ w.taps) : p ∈ a.outputs ∨ ∀ s ∈ a.owned, ∀ t ∈ p.spans, s.Apart t := by
  obtain ⟨-, hops, hrest⟩ := List.pairwise_append.1 h.placed.apart
  have hin : ∀ {op : Operator}, op ∈ w.allOperators → ∀ s ∈ op.owned,
      s ∈ w.allOperators.flatMap Operator.owned := fun ho s hs => List.mem_flatMap.2 ⟨_, ho, hs⟩
  rcases List.mem_append.1 hp with hp | hp
  · right
    intro s hs t ht
    refine (hrest t ?_ s (hin ha s hs)).symm
    rcases List.mem_append.1 hp with hp | hp
    · exact List.mem_append_left _ (List.mem_flatMap.2 ⟨p, hp, ht⟩)
    · obtain ⟨src, hsrc, hp⟩ := List.mem_flatMap.1 hp
      refine List.mem_append_right _ (List.mem_flatMap.2 ⟨src, hsrc, ?_⟩)
      exact List.mem_append_left _ (List.mem_flatMap.2 ⟨p, hp, ht⟩)
  · obtain ⟨op, ho, hp⟩ := List.mem_flatMap.1 hp
    obtain ⟨before, behind, hsplit⟩ := List.append_of_mem ha
    have hperm : w.allOperators.Perm (a :: (before ++ behind)) := hsplit ▸ List.perm_middle
    rcases List.mem_cons.1 (hperm.subset ho) with rfl | ho
    · exact Or.inl hp
    · right
      intro s hs t ht
      have happ := hops.perm (hperm.flatMap_right Operator.owned) fun k => k.symm
      refine (List.pairwise_append.1 happ).2.2 s hs t (List.mem_flatMap.2 ⟨op, ho, ?_⟩)
      exact List.mem_append_left _ (List.mem_append_left _ (List.mem_flatMap.2 ⟨p, hp, ht⟩))

theorem Sound.laid (h : w.Sound) {e : EventPlan} (he : e ∈ w.plan.events) :
    Laid (e.operators.map RankedOperator.operator) := by
  have hsub : (e.operators.map RankedOperator.operator).Sublist w.allOperators := by
    refine List.Sublist.trans ?_ (List.sublist_append_right w.operators _)
    exact List.sublist_flatten_of_mem (List.mem_map.2 ⟨e, he, rfl⟩)
  have hops : (w.allOperators.flatMap Operator.owned).Pairwise Span.Apart :=
    (List.pairwise_append.1 h.placed.apart).2.1
  have happ := hops.sublist (hsub.flatMap Operator.owned)
  have hop : ∀ {a}, a ∈ e.operators.map RankedOperator.operator → a.Connected w.taps :=
    fun ha => h.operators _ (hsub.subset ha)
  refine ⟨happ, fun a ha b hb => ?_, fun a ha s hs v hv t ht => ?_,
    fun a ha b hb s hs v hv t ht => ?_, fun a ha => (hop ha).outputs_even,
    fun a ha => (hop ha).shaped⟩
  · by_cases hf : a.Feeds b
    · exact Or.inl hf
    · right
      intro s hs v hv t ht
      obtain ⟨p, hp, hpv, -⟩ := (hop hb).inputs v hv
      rcases h.tap_cases (hsub.subset ha) hp with hpa | hpa
      · -- a view that does not start in an output is one without elements
        by_cases hl : v.length = 0
        · have heven := Pipe.even_of_mem_views (h.even_of_mem_taps hp) hpv
          exact Pipe.apart_of_empty_view heven hl ht
        · refine absurd ⟨p, hpa, v, hv, hl, (Pipe.inside_of_mem_views hpv).data _ ?_⟩ hf
          exact ⟨Nat.le_refl _, by rw [Pipe.length] at hl; omega⟩
      · exact Pipe.apart_of_inside (Pipe.inside_of_mem_views hpv) ht (hpa s hs)
  · obtain ⟨p, -, hpv, hp⟩ := (hop ha).inputs v hv
    exact Pipe.apart_of_inside (Pipe.inside_of_mem_views hpv) ht (hp s hs)
  · obtain ⟨p, hp, hpv, -⟩ := (hop hb).inputs v hv
    refine Pipe.apart_of_inside (Pipe.inside_of_mem_views hpv) ht fun u hu => ?_
    rcases h.tap_cases (hsub.subset ha) hp with hpa | hpa
    · have howned := happ.sublist (List.sublist_flatten_of_mem (List.mem_map_of_mem ha))
      rw [Operator.owned, List.append_assoc] at howned
      exact ((List.pairwise_append.1 howned).2.2 u (List.mem_flatMap.2 ⟨p, hpa, hu⟩) s hs).symm
    · refine hpa s ?_ u hu
      rw [Operator.owned, List.append_assoc]
      exact List.mem_append_right _ hs

end Workbench

end Readout
