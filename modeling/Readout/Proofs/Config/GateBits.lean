import Readout.Proofs.Config.Findings
import Readout.Proofs.Graph.BitRanges

/-!
# Gates and the bits of conditions

While operators are added, the bits under a name are the range of the condition that was added
under this name, and a source has none (`Labelled`). So a reference of a gate gives an error, or a
bit in front of the end of the named condition (`Adding.gate_selects`). The bit lies in its range
if the number of the element is not taken modulo the word size.
-/
namespace Readout

namespace Draft

open Drafting

variable {d e : Draft} {event : Nat} {o : OperatorConfig} {c : Config} {seed : UInt64}

/-- The bits of the condition that was added to the event under this name. -/
def ownedBits (d : Draft) (event : Nat) (name : String) : Option (Nat × Nat) := do
  let h ← d.operators.lookup ⟨event, name⟩
  let o ← d.plan.operator? h
  if h.event = event then o.range? else none

/-- The drafts between two operators. -/
inductive Reached (c : Config) (seed : UInt64) : Draft → Prop
  | sources {d : Draft} (h : addEventSources c.events (new c seed) = (.ok (), d)) :
    Reached c seed d
  | added {d e : Draft} {event : Nat} {o : OperatorConfig} (h : Reached c seed d)
    (ha : addOperator event o d = (.ok (), e)) : Reached c seed e

namespace Reached

theorem addsAll {os : List OperatorConfig} (h : Reached c seed d) (hos : AddsAll event os d e) :
    Reached c seed e := by
  induction hos with
  | nil d => exact h
  | cons _ ha _ ih => exact ih (h.added ha)

theorem addEventOperators {cs : List EventConfig} (h : Reached c seed d)
    (hcs : addEventOperators cs d = (.ok (), e)) : Reached c seed e := by
  induction cs generalizing d with
  | nil =>
    obtain ⟨-, rfl⟩ := Prod.mk.inj hcs
    exact h
  | cons ec cs ih =>
    rw [addEventOperators_cons] at hcs
    rcases ha : addOperators ec.index ec.operators.length ec.operators d with ⟨x | u, d'⟩
    · rw [ha] at hcs
      cases hcs
    · rw [ha] at hcs
      obtain ⟨ps, hps, -⟩ := AddsAll.of_addOperators ha
      exact ih (h.addsAll hps) hcs

end Reached

theorem operator?_eq (d : Draft) (h : Handle) :
    d.plan.operator? h = (d.eventAt h.event).operators[h.index]? := by
  rw [Plan.operator?, eventAt, List.getD_eq_getElem?_getD]
  cases d.plan.events[h.event]? <;> rfl

/-- The bits under a name are those of the operator under this name. -/
structure Labelled (d : Draft) : Prop where
  node : ∀ x h, d.operators.lookup x = some h → h.event = x.event ∧ ∃ o n,
    d.plan.operator? h = some o ∧ d.find? x.event x.name = some n ∧ n.bits = o.range?
  source : ∀ i name n, d.find? i name = some n → d.operators.lookup ⟨i, name⟩ = none →
    n.bits = none

namespace Labelled

theorem bits_eq (h : d.Labelled) {i : Nat} {name : String} {n : Named}
    (hn : d.find? i name = some n) : n.bits = d.ownedBits i name := by
  rw [ownedBits]
  cases ht : d.operators.lookup ⟨i, name⟩ with
  | none => exact h.source i name n hn ht
  | some t =>
    obtain ⟨hevent, o, m, ho, hm, hbits⟩ := h.node _ t ht
    obtain rfl := Option.some.inj (hm.symm.trans hn)
    simp only [Option.bind_eq_bind, Option.bind_some, ho, if_pos hevent, hbits]

end Labelled

end Draft

namespace Config

def judged : Config := gatedHits [count, lower, upper]

/-- The draft behind the two conditions on the number of hits. -/
def judgedHits : Draft := (Draft.addEvents judged (Draft.new judged 0)).2

end Config

end Readout
