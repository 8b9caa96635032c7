import Readout.Proofs.Expression.Declarations
import Readout.Proofs.Graph.Propagation

/-!
# Outputs of expressions

A script can do anything to its scope. Whatever it leaves there, a step of an expression writes each
element of its outputs, with the number that is found at its place or with an invalid value, and it
writes nothing else (`expression_step`).
-/
namespace Readout

open Script (Datum Scope)

namespace Script.Scope

variable {s : Scope} {name : String} {d : Datum}

/-- The datum was bound to the name, and nothing was bound to it since. -/
def Last (s : Scope) (name : String) (d : Datum) : Prop :=
  ∃ newer older, s = newer ++ (name, d) :: older ∧ name ∉ newer.map Prod.fst

theorem find?_eq_some_iff : s.find? name = some d ↔ s.Last name d := by
  rw [find?, List.lookup_eq_some_iff]
  refine exists_congr fun newer => exists_congr fun older => and_congr_right fun _ => ?_
  simp only [List.mem_map, not_exists, not_and, bne_iff_ne]
  exact forall₂_congr fun b _ => ne_comm

theorem find?_eq_none_iff : s.find? name = none ↔ ∀ d, ¬ s.Last name d := by
  simp only [← find?_eq_some_iff, Option.eq_none_iff_forall_ne_some, ne_eq]

end Script.Scope

section Elements

variable {s : Scope} {name : String} {i size : Nat} {v : Value}

/-- What an element becomes whose output has this name: the number at its place in the array that
was bound to the name last, and otherwise nothing. -/
inductive Script.Scope.Gives (s : Scope) (name : String) (i : Nat) : Value → Prop
  | number {items : Array Datum} {d : Datum} {v : Value} (hlast : s.Last name (.array items))
    (hitem : items[i]? = some d) (h : d.IsNumber v) : Gives s name i v
  | unbound (h : ∀ d, ¬ s.Last name d) : Gives s name i Value.invalid
  | notArray {d : Datum} (hlast : s.Last name d) (h : ∀ items, d ≠ .array items) :
    Gives s name i Value.invalid
  | short {items : Array Datum} (hlast : s.Last name (.array items)) (h : items.size ≤ i) :
    Gives s name i Value.invalid
  | notNumber {items : Array Datum} {d : Datum} (hlast : s.Last name (.array items))
    (hitem : items[i]? = some d) (h : ∀ v, ¬ d.IsNumber v) : Gives s name i Value.invalid

namespace Expression

/-- One element of what is collected. -/
def element (d : Option Datum) (i : Nat) : Value :=
  (((d.bind Datum.array?).bind fun items => items[i]?).bind Datum.number?).getD Value.invalid

theorem length_collect (d : Option Datum) (size : Nat) : (collect d size).length = size := by
  rw [collect]
  split <;> simp

theorem getElem?_collect (d : Option Datum) (hi : i < size) :
    (collect d size)[i]? = some (element d i) := by
  rw [collect, element]
  cases d.bind Datum.array? with
  | none => simp [hi]
  | some items => simp [hi]

theorem gives_iff : s.Gives name i v ↔ v = element (s.find? name) i := by
  constructor
  · intro h
    cases h with
    | number hlast hitem h =>
      simp [element, Scope.find?_eq_some_iff.2 hlast, Datum.array?, hitem,
        Datum.number?_eq_some_iff.2 h]
    | unbound h => simp [element, Scope.find?_eq_none_iff.2 h]
    | notArray hlast h =>
      simp [element, Scope.find?_eq_some_iff.2 hlast, Datum.array?_eq_none_iff.2 h]
    | short hlast h => simp [element, Scope.find?_eq_some_iff.2 hlast, Datum.array?, h]
    | notNumber hlast hitem h =>
      simp [element, Scope.find?_eq_some_iff.2 hlast, Datum.array?, hitem,
        Datum.number?_eq_none_iff.2 h]
  · rintro rfl
    cases hfind : s.find? name with
    | none => exact .unbound (Scope.find?_eq_none_iff.1 hfind)
    | some d =>
      have hlast := Scope.find?_eq_some_iff.1 hfind
      cases harray : d.array? with
      | none =>
        simp only [element, Option.bind_some, harray, Option.bind_none, Option.getD_none]
        exact .notArray hlast (Datum.array?_eq_none_iff.1 harray)
      | some items =>
        obtain rfl := Datum.array?_eq_some_iff.1 harray
        cases hitem : items[i]? with
        | none =>
          simp only [element, Option.bind_some, harray, hitem, Option.bind_none, Option.getD_none]
          exact .short hlast (Array.getElem?_eq_none_iff.1 hitem)
        | some d =>
          cases hnumber : d.number? with
          | none =>
            simp only [element, Option.bind_some, harray, hitem, hnumber, Option.getD_none]
            exact .notNumber hlast hitem (Datum.number?_eq_none_iff.1 hnumber)
          | some v =>
            simp only [element, Option.bind_some, harray, hitem, hnumber, Option.getD_some]
            exact .number hlast hitem (Datum.number?_eq_some_iff.1 hnumber)

end Expression

end Elements

theorem Frame.writeEach_eq (f : Frame) (outputs : List Pipe) (vss : List (List Value)) :
    f.writeEach outputs vss =
      { f with store := f.store.overwrite ((outputs.map Pipe.data).zip vss) } := by
  induction outputs generalizing f vss with
  | nil => rfl
  | cons o outputs ih =>
    cases vss with
    | nil => rfl
    | cons vs vss => exact ih (f.write o vs) vss

theorem Frame.invalidate_eq (f : Frame) (outputs : List Pipe) : f.invalidate outputs = { f with
    store := f.store.fillAll ((outputs.map Pipe.data).map fun p => (p, Value.invalid)) } := by
  rw [invalidate, Store.fillAll, List.foldl_map, List.foldl_map]
  rfl

theorem Store.agree_overwrite {P : Nat → Prop} (s : Store) {writes : List (Span × List Value)}
    (hP : ∀ x ∈ writes, ∀ i ∈ x.1, ¬ P i) : s.AgreeOn P (s.overwrite writes) := by
  induction writes generalizing s with
  | nil => exact .refl P s
  | cons x writes ih =>
    obtain ⟨hx, hP⟩ := List.forall_mem_cons.1 hP
    exact (s.agree_assign x.2 hx).trans (ih _ hP)

namespace Operator

/-- What the step script of an expression finds in scope: the contents of all pipes. -/
def stepScope (op : Operator) (e : Expression) (f : Frame) : Scope :=
  Expression.bind e.names ((op.inputs ++ op.outputs).map fun p => Datum.ofValues (f.values p))

/-- What the step script leaves, if it runs and does not fail. -/
def leaves? (op : Operator) (e : Expression) (f : Frame) : Option Scope :=
  if op.isOpen f.bits then e.program (op.stepScope e f) else none

variable {op : Operator} {e : Expression} {f : Frame}

theorem evaluate_eq (op : Operator) (e : Expression) (f : Frame) :
    e.evaluate (op.inputValues f) (op.outputs.map f.values) =
      (e.program (op.stepScope e f)).map fun scope =>
        e.declarations.map fun d => Expression.collect (scope.find? d.name) d.size := by
  rw [Expression.evaluate, stepScope, inputValues, ← List.map_append, List.map_map]
  rfl

theorem step_expression (hk : op.kind = .expression e) : (op.step f).2 =
    match op.leaves? e f with
    | some scope => f.writeEach op.outputs
      (e.declarations.map fun d => Expression.collect (scope.find? d.name) d.size)
    | none => f.invalidate op.outputs := by
  rw [step, leaves?]
  split
  · simp only [compute, hk, evaluate_eq]
    cases e.program (op.stepScope e f) <;> rfl
  · rfl

/-- A step changes no more than the outputs. -/
theorem step_expression_frame (hk : op.kind = .expression e) :
    f.store.AgreeOn (fun i => ∀ o ∈ op.outputs, i ∉ o.data) (op.step f).2.store ∧
      (op.step f).2 = { f with store := (op.step f).2.store } := by
  rw [step_expression hk]
  split
  · rw [Frame.writeEach_eq]
    refine ⟨f.store.agree_overwrite fun x hx i hi hout => ?_, rfl⟩
    obtain ⟨o, ho, heq⟩ := List.mem_map.1 (List.of_mem_zip hx).1
    exact hout o ho (heq ▸ hi)
  · rw [Frame.invalidate_eq]
    refine ⟨f.store.agree_fillAll fun x hx i hi hout => ?_, rfl⟩
    obtain ⟨p, hp, rfl⟩ := List.mem_map.1 hx
    obtain ⟨o, ho, rfl⟩ := List.mem_map.1 hp
    exact hout o ho hi

section InRange

variable (h : InRange f.store.slots op)

include h

theorem InRange.data_apart : (op.outputs.map Pipe.data).Pairwise Span.Apart := by
  have hparts := h.apart.perm op.owned_parts fun k => k.symm
  have hwritten := (List.pairwise_append.1 (List.pairwise_append.1 hparts).2.1).1
  exact (List.pairwise_append.1 hwritten).1

variable (hk : op.kind = .expression e)

include hk

theorem sizes_expression :
    List.Forall₂ (fun d o => d.size = o.length) e.declarations op.outputs := by
  have hshaped := h.shaped
  rw [Shaped, hk] at hshaped
  have heq : List.Forall₂ Eq (e.declarations.map Declaration.size) (op.outputs.map Pipe.length) :=
    List.forall₂_eq_eq_eq ▸ hshaped.symm
  rwa [List.forall₂_map_left_iff, List.forall₂_map_right_iff] at heq

theorem get_step_none (hnone : op.leaves? e f = none) {o : Pipe} (ho : o ∈ op.outputs) {i : Nat}
    (hi : i < o.length) : (op.step f).2.store.get o.data i = .invalid := by
  rw [step_expression hk, hnone]
  dsimp only
  rw [Frame.invalidate_eq]
  refine Store.get_fillAll (v := .invalid) ?_ ?_ hi (h.output_stop_le ho)
  · simpa [Function.comp_def] using h.data_apart
  · exact List.mem_map_of_mem (List.mem_map_of_mem ho)

theorem get_step_some {scope : Scope} (hsome : op.leaves? e f = some scope) :
    List.Forall₂ (fun d o => ∀ i < o.length,
      scope.Gives d.name i ((op.step f).2.store.get o.data i)) e.declarations op.outputs := by
  have hsizes := sizes_expression h hk
  refine List.forall₂_iff_get.2 ⟨hsizes.length_eq, fun k hd ho i hi => ?_⟩
  have hsize : e.declarations[k].size = op.outputs[k].length := hsizes.get hd ho
  rw [step_expression hk, hsome, Expression.gives_iff]
  dsimp only
  rw [Frame.writeEach_eq]
  -- The outputs are apart, so no later write reaches what was written to this one.
  refine Store.get_overwrite ?_ ?_ (Expression.getElem?_collect _ (hsize ▸ hi)) hi
    (h.output_stop_le (List.getElem_mem ho))
  · rw [List.map_fst_zip (by simp [hsizes.length_eq])]
    exact h.data_apart
  · refine List.mem_of_getElem? (i := k) (List.getElem?_zip_eq_some.2 ?_)
    simp [hd, ho]

end InRange

/-- An expression may have failed in between, and is the same otherwise. -/
theorem eq_of_resting_expression {op' : Operator} (hk : op.kind = .expression e)
    (h : op'.resting = op.resting) :
    ∃ failed, op' = { op with kind := .expression { e with failed := failed } } := by
  obtain ⟨inputs, outputs, gate, kind⟩ := op
  obtain ⟨inputs', outputs', gate', kind'⟩ := op'
  obtain rfl : kind = .expression e := hk
  cases kind' with
  | expression c =>
    obtain ⟨names, ds, program, failed⟩ := c
    simp only [resting, Kind.resting, Operator.mk.injEq, Kind.expression.injEq,
      Expression.mk.injEq, and_true] at h
    obtain ⟨rfl, rfl, rfl, rfl, rfl, rfl⟩ := h
    exact ⟨failed, rfl⟩
  | _ => simp [resting, Kind.resting] at h

section Lives

variable {capacity : Nat} {strategy : FillStrategy} {calls : List BuildCall}
  {inputs : List NamedInput} {first : Scope → Except ExpressionError Datum}
  {program : Scope → Option Scope} {made : Operator} {a : Arena} {s : Store} {gate : Option Nat}
  (ho : (Workbench.after capacity strategy calls).Offers (inputs.map NamedInput.pipe))
  (hmake : (Recipe.expression inputs first program).make
    (Workbench.after capacity strategy calls).plan.arena = (.ok made, a))
  (hlives : Lives { made with gate := gate } a.store op s)

include ho hmake

theorem expression_made (gate : Option Nat) : ∃ ds outputs,
    ds.mapM pushDeclared (Workbench.after capacity strategy calls).plan.arena = (.ok outputs, a) ∧
      made = make (.expression ⟨inputs.map NamedInput.name, ds, program, false⟩)
        (inputs.map NamedInput.pipe) outputs ∧
      InRange a.store.slots { made with gate := gate } := by
  have hsound := (Workbench.sound_after capacity strategy calls).makeOperator
    (r := .expression inputs first program) ho hmake
  obtain ⟨ds, outputs, -, hpush, rfl⟩ := expressionOf_ok hmake
  have hrange := hsound.inRange_operator List.mem_cons_self fun n hn => by cases hn
  exact ⟨ds, outputs, hpush, rfl, hrange.shaped, hrange.even, hrange.fits, hrange.apart,
    hrange.alone, hrange.exact⟩

include hlives

/-- An expression keeps its declarations and its script. -/
theorem expression_lives : s.slots = a.store.slots ∧ InRange s.slots op ∧ ∃ ds outputs failed,
    made = make (.expression ⟨inputs.map NamedInput.name, ds, program, false⟩)
      (inputs.map NamedInput.pipe) outputs ∧
    op = ⟨inputs.map NamedInput.pipe, outputs, gate,
      .expression ⟨inputs.map NamedInput.name, ds, program, failed⟩⟩ := by
  obtain ⟨ds, outputs, -, rfl, hrange⟩ := expression_made ho hmake gate
  obtain ⟨hrest, hslots, -⟩ := hlives.spec hrange fun p hp => by cases hp
  obtain ⟨failed, rfl⟩ := eq_of_resting_expression rfl hrest
  exact ⟨hslots, hslots ▸ hrange.of_resting hrest, ds, outputs, failed, rfl, rfl⟩

end Lives

end Operator

/-- In every state that an expression comes to, and whatever its script does, a step changes nothing
but the outputs, and it defines all of them: by what the script leaves under their names if it runs
to its end, and as invalid otherwise. -/
theorem Operator.expression_step (capacity : Nat) (strategy : FillStrategy) (calls : List BuildCall)
    {inputs : List NamedInput} {first : Scope → Except ExpressionError Datum}
    {program : Scope → Option Scope} {made op : Operator} {a : Arena} {f : Frame}
    (gate : Option Nat)
    (ho : (Workbench.after capacity strategy calls).Offers (inputs.map NamedInput.pipe))
    (hmake : (Recipe.expression inputs first program).make
      (Workbench.after capacity strategy calls).plan.arena = (.ok made, a))
    (hlives : Lives { made with gate := gate } a.store op f.store) :
    ∃ e, op.kind = .expression e ∧ e.program = program ∧
      List.Forall₂ (fun d o => d.size = o.length) e.declarations op.outputs ∧
      f.store.AgreeOn (fun i => ∀ o ∈ op.outputs, i ∉ o.data) (op.step f).2.store ∧
      (op.step f).2 = { f with store := (op.step f).2.store } ∧
      (op.leaves? e f = none → ∀ o ∈ op.outputs, ∀ i < o.length,
        (op.step f).2.store.get o.data i = .invalid) ∧
      ∀ scope, op.leaves? e f = some scope → List.Forall₂ (fun d o => ∀ i < o.length,
        scope.Gives d.name i ((op.step f).2.store.get o.data i)) e.declarations op.outputs := by
  obtain ⟨-, hrange, ds, outputs, failed, -, hop⟩ := expression_lives ho hmake hlives
  have hk : op.kind = .expression ⟨_, ds, program, failed⟩ := congrArg Operator.kind hop
  obtain ⟨hframe, honly⟩ := step_expression_frame (f := f) hk
  exact ⟨_, hk, rfl, sizes_expression hrange hk, hframe, honly,
    fun hnone o hout i hi => get_step_none hrange hk hnone hout hi,
    fun scope hsome => get_step_some hrange hk hsome⟩

section Sample

/-- One pipe of one element. -/
def singleCalls : List BuildCall := [.pushPipe 1 .zero .two]

def singleInput : Operator.NamedInput := ⟨⟨⟨0, 1⟩, ⟨4, 1⟩, ⟨8, 1⟩⟩, "x", "ns"⟩

/-- Declares one output of two elements. -/
def declarePair : Scope → Except ExpressionError Datum := fun _ =>
  .ok (.array #[.text "y", .text "ns", .int 2, .float .zero, .float .two])

/-- Binds the name of the output anew, to an array with one number in it. -/
def rebind : Scope → Option Scope := fun s => some (s.push "y" (.array #[.int 1, .text "one"]))

def rebound : Operator := .make
  (.expression ⟨["x"], [⟨"y", "ns", [.zero, .zero], [.two, .two]⟩], rebind, false⟩)
  [singleInput.pipe] [⟨⟨12, 2⟩, ⟨16, 2⟩, ⟨20, 2⟩⟩]

def reboundArena : Arena :=
  ((Recipe.expression [singleInput] declarePair rebind).make
    (Workbench.after 4096 .direct singleCalls).plan.arena).2

theorem rebound_make : (Recipe.expression [singleInput] declarePair rebind).make
    (Workbench.after 4096 .direct singleCalls).plan.arena = (.ok rebound, reboundArena) := rfl

def reboundFrame : Frame := ⟨reboundArena.store, ⟨[]⟩, .new .direct 0, .fresh⟩

/-- The element that is a number is written, and the other one becomes invalid. -/
theorem Operator.expression_step_rebound :
    (rebound.step reboundFrame).2.store.get ⟨12, 2⟩ 0 = .one ∧
      (rebound.step reboundFrame).2.store.get ⟨12, 2⟩ 1 = .invalid := by
  obtain ⟨e, he, -, -, -, -, -, hgives⟩ := Operator.expression_step 4096 .direct singleCalls none
    (f := reboundFrame) (by decide +kernel) rebound_make .made
  obtain rfl := Kind.expression.inj he
  have hgives := hgives _ rfl
  cases hgives with
  | cons hgives _ =>
    have hzero := Expression.gives_iff.1 (hgives 0 (by decide))
    have hone := Expression.gives_iff.1 (hgives 1 (by decide))
    have hnumber : Value.ofInt 1 = .one := by decide +kernel
    exact ⟨hzero.trans hnumber, hone⟩

end Sample

end Readout
