import Readout.Proofs.Expression.Outputs
import Readout.Proofs.Operator.Course

/-!
# What expressions remember

The outputs of an expression are its only memory: a step makes their next contents of what they
hold and of the inputs, and a new expression holds nothing. The beginning of a run leaves the
outputs as they are. So an expression starts a run as a new one does exactly if the first step would
not tell what its outputs hold from nothing (`expression_restarts_iff`).
-/
namespace Readout

open Script (Datum Scope)

namespace Store

theorem values_eq_of_get {s : Store} {p : Span} {vs : List Value} (hlen : vs.length = p.length)
    (h : ∀ i < p.length, vs[i]? = some (s.get p i)) : s.values p = vs := by
  refine List.ext_getElem? fun i => ?_
  by_cases hi : i < p.length
  · rw [h i hi]
    simp [values, hi]
  · rw [List.getElem?_eq_none (by rw [length_values]; omega), List.getElem?_eq_none (by omega)]

/-- A store that reads like one store in some slots and like another one in all others. -/
theorem exists_merged {P : Nat → Prop} {s t : Store} (h : s.slots = t.slots)
    (hP : ∀ i, P i → i < t.slots) :
    ∃ u : Store, s.AgreeOn P u ∧ t.AgreeOn (fun i => ¬ P i) u := by
  classical
  obtain ⟨vs, hvs⟩ : ∃ vs, vs = (List.range t.slots).map fun i =>
      if P i then s.read i else t.read i := ⟨_, rfl⟩
  refine ⟨t.writeList 0 vs, ⟨h.trans (slots_writeList t 0 vs).symm, fun i hi => ?_⟩,
    ⟨(slots_writeList t 0 vs).symm, fun i hi => ?_⟩⟩
  · rw [read_writeList, if_pos ⟨Nat.zero_le i, hP i hi⟩, hvs]
    simp [hP i hi, hi]
  · rw [read_writeList]
    split
    · next hlt => simp [hvs, hlt.2, hi]
    · rfl

end Store

namespace Expression

/-- Outputs that hold nothing. -/
def blank (e : Expression) : List (List Value) :=
  e.declarations.map fun d => List.replicate d.size Value.invalid

/-- What the outputs hold after a step that runs the script. -/
def next (e : Expression) (ins held : List (List Value)) : List (List Value) :=
  (e.evaluate ins held).getD e.blank

def after (e : Expression) (held : List (List Value)) : Moment → List (List Value)
  | .step true ins => e.next ins held
  | .step false _ => e.blank
  | .tick => held

/-- From the first step on it makes no difference whether the outputs held nothing before, if it
makes none to the steps that run the script. -/
theorem foldl_after_eq {e : Expression} {held : List (List Value)} {ms : List Moment}
    (hsame : ∀ ins, .step true ins ∈ ms → e.next ins held = e.next ins e.blank)
    (hstep : ∃ isOpen ins, .step isOpen ins ∈ ms) :
    ms.foldl e.after held = ms.foldl e.after e.blank := by
  induction ms with
  | nil =>
    obtain ⟨_, _, hmem⟩ := hstep
    cases hmem
  | cons m ms ih =>
    cases m with
    | tick =>
      refine ih (fun ins hmem => hsame ins (List.mem_cons_of_mem _ hmem)) ?_
      obtain ⟨isOpen, ins, hmem⟩ := hstep
      exact ⟨isOpen, ins, (List.mem_cons.1 hmem).resolve_left (by simp)⟩
    | step isOpen ins =>
      cases isOpen with
      | false => rfl
      | true => exact congrArg (ms.foldl e.after) (hsame ins List.mem_cons_self)

end Expression

namespace Operator

/-- The states that an operator comes to from a given one on, with the moments since. What it does
not own may change in between. -/
inductive Since (op : Operator) (s : Store) : List Moment → Operator → Store → Prop
  | now : Since op s [] op s
  | step {ms : List Moment} {op' : Operator} (f : Frame) (h : Since op s ms op' f.store) :
    Since op s (ms ++ [.step (op'.isOpen f.bits) (op'.inputValues f)]) (op'.step f).1
      (op'.step f).2.store
  | tick {ms : List Moment} {op' : Operator} {t : Store} (h : Since op s ms op' t) :
    Since op s (ms ++ [.tick]) (op'.tick t) t
  | others {ms : List Moment} {op' : Operator} {t u : Store} (h : Since op s ms op' t)
    (hsame : t.AgreeOn (fun i => ∃ p ∈ op.owned, i ∈ p) u) : Since op s ms op' u

/-- What the inputs of an operator hold. -/
def seen (op : Operator) (s : Store) : List (List Value) := op.inputs.map fun p => s.values p.data

/-- What the outputs of an operator hold. -/
def held (op : Operator) (s : Store) : List (List Value) := op.outputs.map fun o => s.values o.data

variable {op op' : Operator} {e : Expression} {f : Frame} {s t : Store} {ms : List Moment}

theorem held_eq {ds : List Declaration} {g : Declaration → List Value}
    (h : List.Forall₂ (fun d o => (g d).length = o.length ∧
      ∀ i < o.length, (g d)[i]? = some (s.get o.data i)) ds op.outputs) : op.held s = ds.map g :=
  (map_eq_of_forall₂ h fun _ _ ho => (Store.values_eq_of_get ho.1 ho.2).symm).symm

theorem held_step (h : InRange f.store.slots op) (hk : op.kind = .expression e) :
    op.held (op.step f).2.store =
      e.after (op.held f.store) (.step (op.isOpen f.bits) (op.inputValues f)) := by
  have hsizes := sizes_expression h hk
  have heval : e.evaluate (op.inputValues f) (op.held f.store) = _ := evaluate_eq op e f
  cases hleaves : op.leaves? e f with
  | none =>
    have hblank : op.held (op.step f).2.store = e.blank := by
      refine held_eq (List.forall₂_iff_get.2 ⟨hsizes.length_eq, fun k hd ho => ?_⟩)
      have hsize : e.declarations[k].size = op.outputs[k].length := hsizes.get hd ho
      refine ⟨(List.length_replicate).trans hsize, fun i hi => ?_⟩
      change _ = some ((op.step f).2.store.get op.outputs[k].data i)
      rw [get_step_none h hk hleaves (List.getElem_mem ho) hi]
      exact List.getElem?_replicate_of_lt (hsize ▸ hi)
    rw [hblank]
    rw [leaves?] at hleaves
    split at hleaves
    · next hopen => simp [hopen, Expression.after, Expression.next, heval, hleaves]
    · next hclosed => simp [hclosed, Expression.after]
  | some scope =>
    have hcollected : op.held (op.step f).2.store =
        e.declarations.map fun d => Expression.collect (scope.find? d.name) d.size := by
      refine held_eq (List.forall₂_iff_get.2 ⟨hsizes.length_eq, fun k hd ho => ?_⟩)
      have hsize : e.declarations[k].size = op.outputs[k].length := hsizes.get hd ho
      refine ⟨(Expression.length_collect _ _).trans hsize, fun i hi => ?_⟩
      have hgives := (get_step_some h hk hleaves).get hd ho i hi
      exact (Expression.getElem?_collect _ (hsize ▸ hi)).trans
        (congrArg some (Expression.gives_iff.1 hgives).symm)
    rw [hcollected]
    rw [leaves?] at hleaves
    split at hleaves
    · next hopen => simp [hopen, Expression.after, Expression.next, heval, hleaves]
    · cases hleaves

theorem held_of_resting (h : op'.resting = op.resting) : op'.held s = op.held s := by
  have houtputs : op'.outputs = op.outputs := by
    simpa using congrArg Operator.outputs h
  rw [held, held, houtputs]

theorem held_agree (h : s.AgreeOn (fun i => ∃ p ∈ op.owned, i ∈ p) t) : op.held s = op.held t :=
  List.map_congr_left fun _ ho => h.values_eq fun _ hi => ⟨_, InRange.data_mem_owned ho, hi⟩

/-- The outputs are a function of what they held and of the moments since. -/
theorem Since.spec (hr : InRange s.slots op) (hk : op.kind = .expression e)
    (h : Since op s ms op' t) : op'.resting = op.resting ∧ t.slots = s.slots ∧
      op'.held t = ms.foldl e.after (op.held s) := by
  induction h with
  | now => exact ⟨rfl, rfl, rfl⟩
  | @step ms k g _ ih =>
    obtain ⟨hrest, hslots, hheld⟩ := ih
    obtain ⟨failed, rfl⟩ := eq_of_resting_expression hk hrest
    have hrange : InRange g.store.slots _ := hslots ▸ hr.of_resting hrest
    have hstep := resting_step { op with kind := .expression { e with failed := failed } } g
    refine ⟨hstep.trans hrest, (slots_step _ g).trans hslots, ?_⟩
    rw [held_of_resting hstep, held_step hrange rfl, hheld, List.foldl_concat]
    rfl
  | @tick ms k u _ ih =>
    obtain ⟨hrest, hslots, hheld⟩ := ih
    refine ⟨(k.resting_tick u).trans hrest, hslots, ?_⟩
    rw [held_of_resting (k.resting_tick u), hheld, List.foldl_concat]
    rfl
  | @others ms k u v _ hsame ih =>
    obtain ⟨hrest, hslots, hheld⟩ := ih
    have howned : k.owned = op.owned := by rw [← owned_resting, hrest, owned_resting]
    rw [← howned] at hsame
    exact ⟨hrest, hsame.slots_eq.symm.trans hslots, (held_agree hsame).symm.trans hheld⟩

theorem Since.exists_seen (hr : InRange s.slots op) (hk : op.kind = .expression e)
    (h : Since op s ms op' t) {isOpen : Bool} {ins : List (List Value)}
    (hmem : .step isOpen ins ∈ ms) : ∃ u : Store, u.slots = s.slots ∧ ins = op.seen u := by
  induction h with
  | now => cases hmem
  | @step ms k g hsince ih =>
    rcases List.mem_append.1 hmem with hmem | hmem
    · exact ih hmem
    · obtain ⟨hrest, hslots, -⟩ := hsince.spec hr hk
      have hinputs : k.inputs = op.inputs := by simpa using congrArg Operator.inputs hrest
      obtain ⟨-, rfl⟩ := Moment.step.inj (List.mem_singleton.1 hmem)
      exact ⟨g.store, hslots, by rw [inputValues, hinputs]; rfl⟩
  | tick _ ih => exact ih ((List.mem_append.1 hmem).resolve_right (by simp))
  | others _ _ ih => exact ih hmem

theorem exists_open (op : Operator) : ∃ bits, op.isOpen bits = true := by
  cases hg : op.gate with
  | none => exact ⟨⟨[]⟩, by rw [isOpen, hg]; rfl⟩
  | some bit =>
    exact ⟨⟨List.replicate (bit + 1) true⟩, by simp [isOpen, hg, ConditionBits.test]⟩

/-- The next moment may be a step that runs, with inputs that hold anything. -/
theorem Since.exists_step (hr : InRange s.slots op) {u : Store} (hu : u.slots = s.slots) :
    ∃ op' t, Since op s [.step true (op.seen u)] op' t := by
  obtain ⟨bits, hopen⟩ := op.exists_open
  have hfits : ∀ i, (∃ p ∈ op.owned, i ∈ p) → i < u.slots := by
    rintro i ⟨p, hp, hi⟩
    exact hu ▸ Nat.lt_of_lt_of_le hi.2 (hr.fits p (List.mem_append_right _ hp))
  -- What the operator owns stays, and everything else becomes what `u` holds.
  obtain ⟨v, hown, hothers⟩ := Store.exists_merged hu.symm hfits
  have hseen : op.inputValues ⟨v, bits, .new .direct 0, .fresh⟩ = op.seen u := by
    refine List.map_congr_left fun p hp => (hothers.values_eq fun i hi => ?_).symm
    rintro ⟨q, hq, hiq⟩
    exact hr.input_apart hp p.data_mem_spans hq i hi hiq
  have hnow : Since op s [] op s := .now
  have hstep := Since.step ⟨v, bits, .new .direct 0, .fresh⟩ (hnow.others hown)
  rw [hseen, hopen] at hstep
  exact ⟨_, _, hstep⟩

section Made

variable {d : Declaration} {ds : List Declaration} {o : Pipe} {outputs : List Pipe} {a b : Arena}

theorem pushDeclared_store (h : pushDeclared d a = (.ok o, b)) :
    b.store = ((a.store.fillAll [(o.data, .invalid), (o.lower, .zero), (o.upper, .zero)]).assign
      o.lower d.lower).assign o.upper d.upper := by
  obtain ⟨p, c, hp, h⟩ := exists_of_bind_apply_eq h
  cases h
  rw [← Pipe.push_store hp]

/-- Making outputs writes into their spans only. -/
theorem mapM_pushDeclared_frame (h : ds.mapM pushDeclared a = (.ok outputs, b)) {P : Nat → Prop}
    (hP : ∀ p ∈ outputs.flatMap Pipe.spans, ∀ i ∈ p, ¬ P i) : a.store.AgreeOn P b.store := by
  induction ds generalizing a outputs with
  | nil =>
    cases h
    exact .refl _ _
  | cons d ds ih =>
    rw [List.mapM_cons] at h
    obtain ⟨o, c, hpush, h⟩ := exists_of_bind_apply_eq h
    obtain ⟨rest, c', hrest, h⟩ := exists_of_bind_apply_eq h
    cases h
    rw [List.flatMap_cons] at hP
    have hspans := fun p hp => hP p (List.mem_append_left _ hp)
    refine Store.AgreeOn.trans ?_ (ih hrest fun p hp => hP p (List.mem_append_right _ hp))
    rw [pushDeclared_store hpush]
    refine ((a.store.agree_fillAll fun x hx => hspans x.1 ?_).trans
      (Store.agree_assign _ _ (hspans _ o.lower_mem_spans))).trans
        (Store.agree_assign _ _ (hspans _ o.upper_mem_spans))
    exact List.mem_map_of_mem (f := Prod.fst) hx

theorem mapM_pushDeclared_data (h : ds.mapM pushDeclared a = (.ok outputs, b))
    (hapart : (outputs.flatMap Pipe.spans).Pairwise Span.Apart)
    (hfit : ∀ p ∈ outputs.flatMap Pipe.spans, p.stop ≤ a.store.slots) (ho : o ∈ outputs) {i : Nat}
    (hi : i < o.length) : b.store.get o.data i = .invalid := by
  induction ds generalizing a outputs with
  | nil =>
    cases h
    cases ho
  | cons d ds ih =>
    rw [List.mapM_cons] at h
    obtain ⟨q, c, hpush, h⟩ := exists_of_bind_apply_eq h
    obtain ⟨rest, c', hrest, h⟩ := exists_of_bind_apply_eq h
    cases h
    rw [List.flatMap_cons] at hapart hfit
    obtain ⟨hhead, htail, hacross⟩ := List.pairwise_append.1 hapart
    have hstore := pushDeclared_store hpush
    have hslots : c.store.slots = a.store.slots := by simp [hstore, Store.slots_fillAll]
    rcases List.mem_cons.1 ho with rfl | ho
    · have hlater := mapM_pushDeclared_frame hrest (P := (· ∈ o.data)) fun p hp i hi hin =>
        hacross _ o.data_mem_spans p hp i hin hi
      have hspans := List.pairwise_cons.1 hhead
      have hfills : ([(o.data, Value.invalid), (o.lower, .zero), (o.upper, .zero)].map
        Prod.fst).Pairwise Span.Apart := hhead
      rw [← hlater.get_eq ⟨by omega, by rw [Pipe.length] at hi; omega⟩, hstore,
        Store.get_assign_of_apart _ _ (hspans.1 _ (by simp)) hi,
        Store.get_assign_of_apart _ _ (hspans.1 _ (by simp)) hi]
      exact Store.get_fillAll hfills List.mem_cons_self hi
        (hfit _ (List.mem_append_left _ o.data_mem_spans))
    · exact ih hrest htail (fun p hp => hslots ▸ hfit p (List.mem_append_right _ hp)) ho

end Made

section Lives

variable {capacity : Nat} {strategy : FillStrategy} {calls : List BuildCall}
  {inputs : List NamedInput} {first : Scope → Except ExpressionError Datum}
  {program : Scope → Option Scope} {made : Operator} {a : Arena}
  (ho : (Workbench.after capacity strategy calls).Offers (inputs.map NamedInput.pipe))
  (hmake : (Recipe.expression inputs first program).make
    (Workbench.after capacity strategy calls).plan.arena = (.ok made, a))

include ho hmake

theorem held_made (gate : Option Nat) : ∃ e, made.kind = .expression e ∧
    InRange a.store.slots { made with gate := gate } ∧
      held { made with gate := gate } a.store = e.blank := by
  obtain ⟨ds, outputs, hpush, rfl, hrange⟩ := expression_made ho hmake gate
  refine ⟨_, rfl, hrange, held_eq ?_⟩
  have hsizes : List.Forall₂ (fun d o => d.size = o.length) ds outputs :=
    sizes_expression (f := ⟨a.store, ⟨[]⟩, .new .direct 0, .fresh⟩) hrange rfl
  have hslots := (mapM_pushDeclared_frame hpush (P := fun _ => False) (by simp)).slots_eq
  have hspans : owned { make (.expression ⟨inputs.map NamedInput.name, ds, program, false⟩)
      (inputs.map NamedInput.pipe) outputs with gate := gate } = outputs.flatMap Pipe.spans := by
    simp [owned, make, Kind.memory, Kind.bins]
  have hapart := hspans ▸ hrange.apart
  have hfit : ∀ p ∈ outputs.flatMap Pipe.spans, p.stop ≤ _ := fun p hp =>
    hslots ▸ hrange.fits p (List.mem_append_right _ (hspans ▸ hp))
  refine List.forall₂_iff_get.2 ⟨hsizes.length_eq, fun k hd hout => ?_⟩
  have hsize : ds[k].size = outputs[k].length := hsizes.get hd hout
  refine ⟨(List.length_replicate).trans hsize, fun i hi => ?_⟩
  have hget : a.store.get outputs[k].data i = .invalid :=
    mapM_pushDeclared_data hpush hapart hfit (List.getElem_mem hout) hi
  exact (List.getElem?_replicate_of_lt (hsize ▸ hi)).trans (congrArg some hget.symm)

end Lives

end Operator

/-- The beginning of a run leaves an expression and its outputs as they are. So what the steps of
the run put out is what those of the new expression would, whatever the inputs and the gate bits
are, exactly if no inputs let the script tell what the outputs hold from nothing. -/
theorem Operator.expression_restarts_iff (capacity : Nat) (strategy : FillStrategy)
    (calls : List BuildCall) {inputs : List NamedInput}
    {first : Scope → Except ExpressionError Datum} {program : Scope → Option Scope}
    {made op : Operator} {a : Arena} {f : Frame} (gate : Option Nat)
    (ho : (Workbench.after capacity strategy calls).Offers (inputs.map NamedInput.pipe))
    (hmake : (Recipe.expression inputs first program).make
      (Workbench.after capacity strategy calls).plan.arena = (.ok made, a))
    (hlives : Lives { made with gate := gate } a.store op f.store) :
    ∃ e, op.kind = .expression e ∧ e.program = program ∧ op.beginRun f = (op, f) ∧
      ((∀ ms op₁ op₂ s₁ s₂, Since (op.beginRun f).1 (op.beginRun f).2.store ms op₁ s₁ →
          Since { made with gate := gate } a.store ms op₂ s₂ →
            (∃ isOpen ins, .step isOpen ins ∈ ms) → op₁.held s₁ = op₂.held s₂) ↔
        ∀ t : Store, t.slots = f.store.slots →
          e.next (op.seen t) (op.held f.store) = e.next (op.seen t) e.blank) := by
  obtain ⟨hslots, hrange, ds, outputs, failed, hmade, hop⟩ := expression_lives ho hmake hlives
  obtain ⟨e, hk, hrange', hblank⟩ := held_made ho hmake gate
  have hbegin : op.beginRun f = (op, f) := by
    rw [hop]
    rfl
  obtain rfl : e = ⟨inputs.map NamedInput.name, ds, program, false⟩ :=
    Kind.expression.inj (hk.symm.trans (congrArg Operator.kind hmade))
  have hk' : op.kind = .expression ⟨inputs.map NamedInput.name, ds, program, failed⟩ :=
    congrArg Operator.kind hop
  have hseen : ∀ t, seen { made with gate := gate } t = op.seen t := fun t => by
    rw [hop, hmade]
    rfl
  refine ⟨_, hk', rfl, hbegin, ⟨fun hsame t ht => ?_, fun hsame ms op₁ op₂ s₁ s₂ h₁ h₂ hstep => ?_⟩⟩
  · obtain ⟨op₁, s₁, h₁⟩ := Since.exists_step hrange ht
    obtain ⟨op₂, s₂, h₂⟩ := Since.exists_step hrange' (ht.trans hslots)
    rw [hseen] at h₂
    rw [hbegin] at hsame
    have heq := hsame _ _ _ _ _ h₁ h₂ ⟨true, _, List.mem_singleton_self _⟩
    rw [(h₁.spec hrange hk').2.2, (h₂.spec hrange' hk).2.2] at heq
    exact heq.trans (congrArg (Expression.next _ (op.seen t)) hblank)
  · rw [hbegin] at h₁
    rw [(h₁.spec hrange hk').2.2, (h₂.spec hrange' hk).2.2]
    refine (Expression.foldl_after_eq (fun ins hmem => ?_) hstep).trans
      (congrArg (fun held => ms.foldl _ held) hblank.symm)
    obtain ⟨t, ht, rfl⟩ := h₁.exists_seen hrange hk' hmem
    exact hsame t ht

section Sample

/-- An output that does not look at what it held starts anew with every run. -/
theorem Operator.expression_restarts_rebound :
    let op := (rebound.step reboundFrame).1
    let s := (rebound.step reboundFrame).2.store
    ∀ ms op₁ op₂ s₁ s₂, Operator.Since (op.beginRun ⟨s, ⟨[]⟩, .new .direct 0, .fresh⟩).1
        (op.beginRun ⟨s, ⟨[]⟩, .new .direct 0, .fresh⟩).2.store ms op₁ s₁ →
      Operator.Since rebound reboundArena.store ms op₂ s₂ →
        (∃ isOpen ins, .step isOpen ins ∈ ms) → op₁.held s₁ = op₂.held s₂ := by
  intro op s
  have hlives : Operator.Lives { rebound with gate := none } reboundArena.store op s :=
    .step (f := reboundFrame) .made
  obtain ⟨e, he, -, -, hiff⟩ := Operator.expression_restarts_iff 4096 .direct singleCalls none
    (f := ⟨s, ⟨[]⟩, .new .direct 0, .fresh⟩) (by decide +kernel) rebound_make hlives
  obtain rfl := Kind.expression.inj he
  exact hiff.2 fun t _ => rfl

def declareCount : Scope → Except ExpressionError Datum := fun _ =>
  .ok (.array #[.text "n", .text "", .int 1, .float .zero, .float .two])

/-- Counts events: the first one makes one of nothing, and each further one adds one. -/
def countOn : Scope → Option Scope := fun s =>
  let n := Expression.element (s.find? "n") 0
  some (s.push "n" (.array #[.float (if n.isValid then n + .one else .one)]))

def counter : Operator := .make
  (.expression ⟨["x"], [⟨"n", "", [.zero], [.two]⟩], countOn, false⟩)
  [singleInput.pipe] [⟨⟨12, 1⟩, ⟨16, 1⟩, ⟨20, 1⟩⟩]

def counterArena : Arena :=
  ((Recipe.expression [singleInput] declareCount countOn).make
    (Workbench.after 4096 .direct singleCalls).plan.arena).2

def counterFrame : Frame := ⟨counterArena.store, ⟨[]⟩, .new .direct 0, .fresh⟩

/-- A counter goes on in the next run where it stopped in the run before. -/
theorem Operator.expression_counts_on :
    (Recipe.expression [singleInput] declareCount countOn).make
      (Workbench.after 4096 .direct singleCalls).plan.arena = (.ok counter, counterArena) ∧
    ∃ op f, Operator.Lives counter counterArena.store op f.store ∧
      ((op.beginRun f).1.step (op.beginRun f).2).2.store.get ⟨12, 1⟩ 0 = .two ∧
      (counter.step counterFrame).2.store.get ⟨12, 1⟩ 0 = .one ∧
      op.inputValues f = counter.inputValues counterFrame := by
  refine ⟨rfl, (counter.step counterFrame).1, (counter.step counterFrame).2, ?_, ?_, ?_, ?_⟩
  · exact .step (f := counterFrame) .made
  all_goals decide +kernel

end Sample

end Readout
