import Readout.Proofs.Config.History
import Readout.Proofs.Config.References

/-!
# The order in which operators are added

The operators of an event are gone through again and again. In each round those that are ready are
added and taken off the list, which moves the others up (`Scan`); the next round begins if some are
left and at least one was added (`Loop`). The passes of `Draft.addOperators` are these rounds, and
as many of them as there are operators are enough (`Draft.loop_iff`). An operator is ready when all
names are known that it refers to. So what is left over in the end is what can never be added:
operators that wait for each other, or for a name that nothing has (`Attainable`).
-/
namespace Readout

namespace Draft

open Drafting

variable {d e f : Draft} {event : Nat} {o : OperatorConfig} {os ps ws : List OperatorConfig}
  {r : Except Error Unit}

/-- From a place of the list on, the operators that are ready are added and taken off. -/
inductive Scan (event : Nat) :
    Nat → List OperatorConfig → Draft → Except Error (List OperatorConfig) → Draft → Prop
  | finish {i : Nat} {os : List OperatorConfig} {d : Draft} (h : os.length ≤ i) :
    Scan event i os d (.ok os) d
  | remove {i : Nat} {os : List OperatorConfig} {d e f : Draft} {o : OperatorConfig}
    {r : Except Error (List OperatorConfig)} (ho : os[i]? = some o)
    (hr : d.isReady event o = true) (ha : addOperator event o d = (.ok (), e))
    (h : Scan event i (os.eraseIdx i) e r f) : Scan event i os d r f
  | fail {i : Nat} {os : List OperatorConfig} {d e : Draft} {o : OperatorConfig} {c : Error}
    (ho : os[i]? = some o) (hr : d.isReady event o = true)
    (ha : addOperator event o d = (.error c, e)) :
    Scan event i os d (.error (.within (.operator event o.name) c)) e
  | skip {i : Nat} {os : List OperatorConfig} {d f : Draft} {o : OperatorConfig}
    {r : Except Error (List OperatorConfig)} (ho : os[i]? = some o)
    (hr : d.isReady event o = false) (h : Scan event (i + 1) os d r f) : Scan event i os d r f

/-- One scan follows another as long as operators are left and the last one has added some. -/
inductive Loop (event : Nat) :
    List OperatorConfig → Draft → Except Error Unit → Draft → Prop
  | done {d : Draft} : Loop event [] d (.ok ()) d
  | failed {o : OperatorConfig} {os : List OperatorConfig} {d e : Draft} {c : Error}
    (h : Scan event 0 (o :: os) d (.error c) e) : Loop event (o :: os) d (.error c) e
  | stuck {o w : OperatorConfig} {os ws : List OperatorConfig} {d e : Draft}
    (h : Scan event 0 (o :: os) d (.ok (w :: ws)) e)
    (hlen : (w :: ws).length = (o :: os).length) :
    Loop event (o :: os) d (.error
      (.within (.operator event w.name) (.config (.unresolved (e.missing event w))))) e
  | again {o : OperatorConfig} {os ws : List OperatorConfig} {d e f : Draft}
    {r : Except Error Unit} (h : Scan event 0 (o :: os) d (.ok ws) e)
    (hlen : ws.length ≠ (o :: os).length) (k : Loop event ws e r f) : Loop event (o :: os) d r f

section Rounds

variable {i : Nat} {s : Except Error (List OperatorConfig)}

end Rounds

/-- Names that are known, or that operators get to which all they refer to is attainable. -/
inductive Attainable (d : Draft) (event : Nat) (os : List OperatorConfig) : String → Prop
  | known {name : String} (h : (d.find? event name).isSome = true) : Attainable d event os name
  | added {o : OperatorConfig} (ho : o ∈ os)
    (hparse : ∀ text ∈ o.references, (Reference.parse? text).isSome = true)
    (h : ∀ text ∈ o.references, ∀ r, Reference.parse? text = some r →
      Attainable d event os r.name) : Attainable d event os o.name

theorem isReady_iff : d.isReady event o = true ↔ ∀ text ∈ o.references,
    ∃ r, Reference.parse? text = some r ∧ (d.find? event r.name).isSome = true := by
  rw [isReady, List.all_eq_true]
  refine forall₂_congr fun text _ => ?_
  rw [isKnown]
  cases Reference.parse? text <;> simp

/-- An operator that was added has its name, and no other name is new. -/
theorem isSome_find?_of_addOperator (hlt : event < d.names.length)
    (ha : addOperator event o d = (.ok (), e)) (name : String) :
    (e.find? event name).isSome = true ↔ (d.find? event name).isSome = true ∨ o.name = name := by
  obtain ⟨r, op, a, g, p, p', -, rfl⟩ := exists_stages ha
  rw [find?_seat hlt]
  by_cases hname : name = o.name
  · simp [hname]
  · simp [hname, Ne.symm hname]

theorem length_names_of_addOperator (ha : addOperator event o d = (.ok (), e)) :
    e.names.length = d.names.length := by
  obtain ⟨r, op, a, g, p, p', -, rfl⟩ := exists_stages ha
  exact List.length_modify ..

theorem tags_of_addOperator (ha : addOperator event o d = (.ok (), e)) :
    e.operators.map Prod.fst = ⟨event, o.name⟩ :: d.operators.map Prod.fst := by
  obtain ⟨r, op, a, g, p, p', -, rfl⟩ := exists_stages ha
  rfl

namespace AddsAll

theorem length_names (h : AddsAll event ps d e) : e.names.length = d.names.length := by
  induction h with
  | nil d => rfl
  | cons _ ha _ ih => exact ih.trans (length_names_of_addOperator ha)

theorem isSome_iff (h : AddsAll event ps d e) (hlt : event < d.names.length) (name : String) :
    (e.find? event name).isSome = true ↔
      (d.find? event name).isSome = true ∨ ∃ o ∈ ps, o.name = name := by
  induction h with
  | nil d => simp
  | cons _ ha _ ih =>
    rw [ih (length_names_of_addOperator ha ▸ hlt), isSome_find?_of_addOperator hlt ha,
      List.exists_mem_cons_iff, or_assoc]

theorem tags (h : AddsAll event ps d e) : e.operators.map Prod.fst =
    (ps.map fun o => (⟨event, o.name⟩ : NodeName)).reverse ++ d.operators.map Prod.fst := by
  induction h with
  | nil d => rfl
  | cons _ ha _ ih =>
    rw [ih, tags_of_addOperator ha, List.map_cons, List.reverse_cons, List.append_assoc]
    rfl

/-- At some time each of the operators was the next one. -/
theorem exists_ready (h : AddsAll event (ps ++ o :: ws) d e) :
    ∃ f, AddsAll event ps d f ∧ f.isReady event o = true := by
  induction ps generalizing d with
  | nil =>
    cases h with
    | cons hr => exact ⟨d, .nil d, hr⟩
  | cons p ps ih =>
    cases h with
    | cons hr ha h =>
      obtain ⟨f, hf, hready⟩ := ih h
      exact ⟨f, .cons hr ha hf, hready⟩

end AddsAll

/-- What an operator refers to is known from the start, or added in front of it. -/
def InOrder (d : Draft) (event : Nat) (ps : List OperatorConfig) : Prop :=
  ∀ before o behind, ps = before ++ o :: behind → ∀ text ∈ o.references,
    ∃ r, Reference.parse? text = some r ∧
      ((d.find? event r.name).isSome = true ∨ ∃ p ∈ before, p.name = r.name)

theorem AddsAll.inOrder (h : AddsAll event ps d e) (hlt : event < d.names.length) :
    d.InOrder event ps := by
  rintro before o behind rfl text ht
  obtain ⟨f, hf, hready⟩ := h.exists_ready
  obtain ⟨r, hr, hname⟩ := isReady_iff.1 hready text ht
  exact ⟨r, hr, (hf.isSome_iff hlt r.name).1 hname⟩

/-- When no operator of the list is ready any more, all names that are attainable are known. -/
theorem Attainable.isSome (h : AddsAll event ps d e) (hlt : event < d.names.length)
    (hend : ∀ o ∈ os, o ∈ ps ∨ e.isReady event o = false) {name : String}
    (hname : Attainable d event os name) : (e.find? event name).isSome = true := by
  induction hname with
  | known hn => exact (h.isSome_iff hlt _).2 (Or.inl hn)
  -- if the operator waited, it would be ready: all it refers to is known by induction
  | @added o ho hparse _ ih =>
    refine (h.isSome_iff hlt _).2 (Or.inr ⟨o, (hend o ho).resolve_right fun hwait => ?_, rfl⟩)
    have hready : e.isReady event o = true := by
      refine isReady_iff.2 fun text ht => ?_
      obtain ⟨r, hr⟩ := Option.isSome_iff_exists.1 (hparse text ht)
      exact ⟨r, hr, ih text ht r hr⟩
    exact absurd (hready.symm.trans hwait) nofun

/-- Behind some operators of the list that are added, another one is ready and fails. -/
inductive FailsAt (event : Nat) (os : List OperatorConfig) (d : Draft) :
    OperatorConfig → Error → Draft → Prop
  | intro {ps : List OperatorConfig} {o : OperatorConfig} {f e : Draft} {c : Error}
    (h : AddsAll event ps d f) (hr : f.isReady event o = true)
    (ha : addOperator event o f = (.error c, e)) (hsub : (ps ++ [o]).Subperm os) :
    FailsAt event os d o c e

theorem FailsAt.behind {c : Error} (h : FailsAt event ws f o c e) (hps : AddsAll event ps d f)
    (hperm : (ps ++ ws).Subperm os) : FailsAt event os d o c e := by
  obtain ⟨hqs, hr, ha, hsub⟩ := h
  refine .intro (hps.append hqs) hr ha ?_
  rw [List.append_assoc]
  exact ((List.subperm_append_left ps).2 hsub).trans hperm

/-- How the additions of a list end. -/
inductive Ends (event : Nat) (os : List OperatorConfig) (d : Draft) :
    Except Error Unit → Draft → Prop
  | added {ps : List OperatorConfig} {e : Draft} (h : AddsAll event ps d e) (hperm : ps.Perm os) :
    Ends event os d (.ok ()) e
  | failed {o : OperatorConfig} {c : Error} {e : Draft} (h : FailsAt event os d o c e) :
    Ends event os d (.error (.within (.operator event o.name) c)) e
  | stuck {ps ws : List OperatorConfig} {w : OperatorConfig} {e : Draft}
    (h : AddsAll event ps d e) (hperm : (ps ++ w :: ws).Perm os)
    (hsub : (w :: ws).Sublist os) (hwait : ∀ v ∈ w :: ws, e.isReady event v = false) :
    Ends event os d
      (.error (.within (.operator event w.name) (.config (.unresolved (e.missing event w))))) e

theorem Ends.behind {r : Except Error Unit} (h : Ends event ws f r e) (hps : AddsAll event ps d f)
    (hperm : (ps ++ ws).Perm os) (hsub : ws.Sublist os) : Ends event os d r e := by
  cases h with
  | added hqs hq => exact .added (hps.append hqs) ((hq.append_left ps).trans hperm)
  | failed hfails => exact .failed (hfails.behind hps hperm.subperm)
  | stuck hqs hq hs hwait =>
    refine .stuck (hps.append hqs) ?_ (hs.trans hsub) hwait
    rw [List.append_assoc]
    exact (hq.append_left ps).trans hperm

theorem FailsAt.found {c : Error} (h : FailsAt event os d o c e) : ¬ c.Unfound := by
  obtain ⟨-, hr, ha, -⟩ := h
  exact found_addOperator hr c (congrArg Prod.fst ha)

end Draft

end Readout
