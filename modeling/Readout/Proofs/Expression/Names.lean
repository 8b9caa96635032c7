import Readout.Proofs.Config.GateBits
import Readout.Proofs.Expression.Outputs

/-!
# Names of inputs and outputs

An expression that could be made has outputs that differ in name from each other and from all
inputs. Nothing compares the inputs with each other, so in the scope of a step each name denotes
the last pipe of that name, and no pipe is hidden exactly if the inputs differ in name
(`expression_names`).
-/
namespace Readout

open Script (Datum Scope)

/-- An input goes by the name that it is given, or by that of the node that it refers to. -/
inductive InputConfig.Names : InputConfig → String → Prop
  | given {input unit name : String} : Names ⟨input, some name, unit⟩ name
  | referred {input unit : String} {r : Reference} (h : Reference.read input = .ok r) :
    Names ⟨input, none, unit⟩ r.name

/-- What is known of each result of a computation is known of all results in a row. -/
theorem forall₂_of_mapM {σ α β : Type} {f : α → ExceptT Error (StateM σ) β} {R : α → β → Prop}
    (hf : ∀ x a y b, f x a = (.ok y, b) → R x y) {xs : List α} {ys : List β} {a b : σ}
    (h : xs.mapM f a = (.ok ys, b)) : List.Forall₂ R xs ys := by
  induction xs generalizing ys a b with
  | nil =>
    cases h
    exact .nil
  | cons x xs ih =>
    rw [List.mapM_cons] at h
    obtain ⟨y, c, hy, h⟩ := exists_of_bind_apply_eq h
    obtain ⟨rest, d, hrest, h⟩ := exists_of_bind_apply_eq h
    cases h
    exact .cons (hf x a y c hy) (ih hrest)

theorem Draft.names_resolveInput {event : Nat} {i : InputConfig} {d d' : Draft}
    {input : Operator.NamedInput} (h : resolveInput event i d = (.ok input, d')) :
    i.Names input.name := by
  rw [resolveInput_eq] at h
  have hinput : d.input event i = .ok input := (Prod.mk.inj h).1
  obtain ⟨text, name, unit⟩ := i
  cases name with
  | some name =>
    obtain ⟨_, hname, hinput⟩ := exists_of_bind_eq_ok hinput
    obtain ⟨p, -, hinput⟩ := exists_of_bind_eq_ok hinput
    cases hname
    cases hinput
    exact .given
  | none =>
    obtain ⟨name, hname, hinput⟩ := exists_of_bind_eq_ok hinput
    obtain ⟨p, -, hinput⟩ := exists_of_bind_eq_ok hinput
    cases hinput
    cases hr : Reference.read text with
    | error e =>
      rw [hr] at hname
      cases hname
    | ok r =>
      rw [hr] at hname
      cases hname
      exact .referred hr

namespace Expression

variable {name : String} {d : Datum} {names : List String} {data : List Datum}

theorem bind_eq (names : List String) (data : List Datum) :
    bind names data = (names.zip data).reverse := by
  simp [bind, Scope.push, Scope.empty]

/-- A name stands for the datum at its last place. -/
theorem last_bind_iff (h : names.length = data.length) : (bind names data).Last name d ↔
    ∃ k, names[k]? = some name ∧ data[k]? = some d ∧ name ∉ names.drop (k + 1) := by
  have hnames : (names.zip data).map Prod.fst = names := List.map_fst_zip (Nat.le_of_eq h)
  have hdata : (names.zip data).map Prod.snd = data := List.map_snd_zip (Nat.le_of_eq h.symm)
  -- The newest binding comes first in a scope, so what is newer stands further back in the list.
  rw [bind_eq]
  constructor
  · rintro ⟨newer, older, heq, hnew⟩
    have hzip : names.zip data = older.reverse ++ (name, d) :: newer.reverse := by
      rw [← List.reverse_reverse (names.zip data), heq]
      simp
    have hlater : names.drop (older.length + 1) = (newer.map Prod.fst).reverse := by
      rw [← hnames, hzip]
      simp [List.drop_append]
    rw [hzip] at hnames hdata
    refine ⟨older.length, ?_, ?_, ?_⟩
    · simp [← hnames]
    · simp [← hdata]
    · rwa [hlater, List.mem_reverse]
  · rintro ⟨k, hname, hd, hlater⟩
    have hk : (names.zip data)[k]? = some (name, d) := List.getElem?_zip_eq_some.2 ⟨hname, hd⟩
    obtain ⟨hlt, hget⟩ := List.getElem?_eq_some_iff.1 hk
    have hsplit : names.zip data =
        (names.zip data).take k ++ (name, d) :: (names.zip data).drop (k + 1) := by
      rw [← hget, ← List.drop_eq_getElem_cons hlt, List.take_append_drop]
    refine ⟨((names.zip data).drop (k + 1)).reverse, ((names.zip data).take k).reverse, ?_, ?_⟩
    · simpa using congrArg List.reverse hsplit
    · rwa [List.map_reverse, List.mem_reverse, List.map_drop, hnames]

end Expression

theorem not_mem_drop_of_nodup {names : List String} {name : String} {k : Nat} (h : names.Nodup)
    (hk : names[k]? = some name) : name ∉ names.drop (k + 1) := by
  obtain ⟨hlt, rfl⟩ := List.getElem?_eq_some_iff.1 hk
  have hdrop := h.sublist (List.drop_sublist k names)
  rw [List.drop_eq_getElem_cons hlt] at hdrop
  exact (List.nodup_cons.1 hdrop).1

namespace Operator

/-- The last of the pipes that go by a name. -/
def Denoted (op : Operator) (e : Expression) (name : String) (p : Pipe) : Prop :=
  ∃ k, e.names[k]? = some name ∧ (op.inputs ++ op.outputs)[k]? = some p ∧
    name ∉ e.names.drop (k + 1)

variable {op : Operator} {e : Expression} {f : Frame} {name : String} {d : Datum}

/-- In the scope of a step a name stands for the contents of the pipe that it denotes. -/
theorem last_stepScope_iff (h : e.names.length = (op.inputs ++ op.outputs).length) :
    (op.stepScope e f).Last name d ↔ ∃ p, op.Denoted e name p ∧ d = .ofValues (f.values p) := by
  rw [stepScope, Expression.last_bind_iff (by rw [List.length_map, h])]
  simp only [List.getElem?_map, Option.map_eq_some_iff]
  constructor
  · rintro ⟨k, hname, ⟨p, hp, rfl⟩, hlater⟩
    exact ⟨p, ⟨k, hname, hp, hlater⟩, rfl⟩
  · rintro ⟨p, ⟨k, hname, hp, hlater⟩, rfl⟩
    exact ⟨k, hname, ⟨p, hp, rfl⟩, hlater⟩

/-- A name that no other pipe has denotes its own pipe. -/
theorem denoted_iff_of_nodup (hnodup : e.names.Nodup) {k : Nat} {p q : Pipe}
    (hname : e.names[k]? = some name) (hp : (op.inputs ++ op.outputs)[k]? = some p) :
    op.Denoted e name q ↔ q = p := by
  constructor
  · rintro ⟨j, hj, hq, -⟩
    obtain ⟨hlt, -⟩ := List.getElem?_eq_some_iff.1 hj
    obtain rfl : j = k := (List.getElem?_inj hlt hnodup).1 (hj.trans hname.symm)
    exact Option.some.inj (hq.symm.trans hp)
  · rintro rfl
    exact ⟨k, hname, hp, not_mem_drop_of_nodup hnodup hname⟩

end Operator

/-- The names of an expression that could be made are distinct exactly if those of its inputs are,
and then each name denotes its own pipe. In any case a name denotes the last pipe of that name. -/
theorem Operator.expression_names {inputs : List NamedInput}
    {first : Scope → Except ExpressionError Datum} {program : Scope → Option Scope} {a b : Arena}
    {op : Operator} (hmake : expressionOf inputs first program a = (.ok op, b)) :
    ∃ e, op.kind = .expression e ∧ op.inputs = inputs.map NamedInput.pipe ∧
      e.inputNames = inputs.map NamedInput.name ∧
      e.names.length = (op.inputs ++ op.outputs).length ∧
      (∀ event ics d d', ics.mapM (Draft.resolveInput event) d = (.ok inputs, d') →
        List.Forall₂ InputConfig.Names ics e.inputNames) ∧
      (e.declarations.map Declaration.name).Nodup ∧
      (∀ d ∈ e.declarations, d.name ∉ e.inputNames) ∧
      (e.names.Nodup ↔ e.inputNames.Nodup) ∧
      (∀ (f : Frame) name d, (op.stepScope e f).Last name d ↔
        ∃ p, op.Denoted e name p ∧ d = .ofValues (f.values p)) ∧
      (e.inputNames.Nodup → ∀ (k : Nat) name p, e.names[k]? = some name →
        (op.inputs ++ op.outputs)[k]? = some p → ∀ q, op.Denoted e name q ↔ q = p) := by
  obtain ⟨ds, outputs, ⟨_, -, ⟨_, -, -, -, hnodup⟩, hfresh⟩, hpush, rfl⟩ := expressionOf_ok hmake
  obtain ⟨e, he⟩ : ∃ e, e = Expression.mk (inputs.map NamedInput.name) ds program false := ⟨_, rfl⟩
  have hsizes := (Takes.mapM takes_pushDeclared ds).result a outputs (by rw [hpush])
  have hlength : e.names.length = (inputs.map NamedInput.pipe ++ outputs).length := by
    simp [he, Expression.names, hsizes.length_eq]
  have hnames : e.names.Nodup ↔ e.inputNames.Nodup := by
    subst he
    refine ⟨fun h => (List.nodup_append.1 h).1, fun h => List.nodup_append.2 ⟨h, hnodup, ?_⟩⟩
    rintro x hx _ hy rfl
    obtain ⟨d, hd, rfl⟩ := List.mem_map.1 hy
    exact hfresh d hd hx
  refine ⟨e, congrArg Kind.expression he.symm, rfl, by rw [he], hlength, ?_, by rwa [he],
    by rwa [he], hnames, fun f name d => last_stepScope_iff hlength,
    fun hdistinct k name p hname hp q => denoted_iff_of_nodup (hnames.2 hdistinct) hname hp⟩
  intro event ics d d' hresolve
  rw [he, List.forall₂_map_right_iff]
  exact forall₂_of_mapM (f := Draft.resolveInput event)
    (fun _ _ _ _ => Draft.names_resolveInput) hresolve

section Sample

deriving instance DecidableEq for Operator.NamedInput

/-- Two elements of the same hits. -/
def hitConfigs : List InputConfig := [⟨"hits[0]", none, "ns"⟩, ⟨"hits[1]", none, "ns"⟩]

def hitInputs : List Operator.NamedInput :=
  [⟨⟨⟨0, 1⟩, ⟨4, 1⟩, ⟨8, 1⟩⟩, "hits", "ns"⟩, ⟨⟨⟨1, 1⟩, ⟨5, 1⟩, ⟨9, 1⟩⟩, "hits", "ns"⟩]

theorem Operator.expression_names_single : ∃ e, rebound.kind = .expression e ∧
    ∀ q, rebound.Denoted e "x" q ↔ q = singleInput.pipe := by
  obtain ⟨e, he, -, -, -, -, -, -, -, -, hown⟩ := Operator.expression_names rebound_make
  obtain rfl := Kind.expression.inj he
  exact ⟨_, rfl, hown (by decide) 0 "x" singleInput.pipe rfl rfl⟩

/-- Both inputs go by the name of the hits, and then no name denotes the first one. -/
theorem Operator.expression_hides_input :
    (hitConfigs.mapM (Draft.resolveInput 0) Config.judgedHits).1 = .ok hitInputs ∧
      ∃ op b e,
        expressionOf hitInputs declarePair rebind Config.judgedHits.plan.arena = (.ok op, b) ∧
        op.kind = .expression e ∧ ¬ e.names.Nodup ∧
        op.inputs[0]? = some ⟨⟨0, 1⟩, ⟨4, 1⟩, ⟨8, 1⟩⟩ ∧
        ∀ name, ¬ op.Denoted e name ⟨⟨0, 1⟩, ⟨4, 1⟩, ⟨8, 1⟩⟩ := by
  have hresolved : (hitConfigs.mapM (Draft.resolveInput 0) Config.judgedHits).1.toOption =
      some hitInputs := by decide +kernel
  have hmade : (expressionOf hitInputs declarePair rebind
      Config.judgedHits.plan.arena).1.toOption.map Operator.outputs =
        some [⟨⟨28, 2⟩, ⟨32, 2⟩, ⟨36, 2⟩⟩] := by decide +kernel
  refine ⟨?_, ?_⟩
  · cases hr : (hitConfigs.mapM (Draft.resolveInput 0) Config.judgedHits).1 with
    | ok is =>
      rw [hr] at hresolved
      exact congrArg Except.ok (Option.some.inj hresolved)
    | error e =>
      rw [hr] at hresolved
      cases hresolved
  · rcases hr : expressionOf hitInputs declarePair rebind Config.judgedHits.plan.arena with
      ⟨e | op, b⟩
    · rw [hr] at hmade
      cases hmade
    · rw [hr] at hmade
      have hout : op.outputs = [⟨⟨28, 2⟩, ⟨32, 2⟩, ⟨36, 2⟩⟩] := Option.some.inj hmade
      obtain ⟨ds, outputs, -, -, rfl⟩ := expressionOf_ok hr
      obtain rfl : outputs = [⟨⟨28, 2⟩, ⟨32, 2⟩, ⟨36, 2⟩⟩] := hout
      refine ⟨_, b, _, rfl, rfl, by simp [Expression.names, hitInputs], rfl, ?_⟩
      rintro name ⟨k, hname, hp, hlater⟩
      match k with
      | 0 =>
        obtain rfl : "hits" = name := Option.some.inj hname
        exact hlater List.mem_cons_self
      | 1 | 2 => cases hp
      | k + 3 => cases hp

end Sample

end Readout
