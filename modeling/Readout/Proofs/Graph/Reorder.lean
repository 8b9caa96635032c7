import Readout.Proofs.Graph.Strategy

/-!
# Other orders

The order of the ranks is one of many in which the operators of an event could step. Two operators
that stand in different order in two such orders do not depend on each other, so they may change
places: whichever order is taken, the event ends in the same state.
-/
namespace Readout

namespace Operator

/-- Unless one of the operators has to run before the other one, they may change places. -/
def MayChange (F : List String → Prop) (a b : Operator) : Prop :=
  ¬ a.Precedes b → ¬ b.Precedes a →
    a.Independent b ∧ ∀ p, F p → a.Opens p → ¬ b.Opens p

theorem MayChange.symm {F : List String → Prop} {a b : Operator} (h : a.MayChange F b) :
    b.MayChange F a := fun hba hab =>
  ⟨(h hab hba).1.symm, fun p hp hb ha => (h hab hba).2 p hp ha hb⟩

end Operator

/-- Files that at most one of the operators has open. -/
def soleFiles (ops : List Operator) (place : List String) : Prop :=
  ops.Pairwise fun a b => ¬ (a.Opens place ∧ b.Opens place)

theorem InOrder.mayChange {ops : List Operator} (h : InOrder ops) :
    ops.Pairwise (Operator.MayChange (soleFiles ops)) := by
  have howned := (List.pairwise_flatMap.1 h.laid.apart).2
  have hfiles : ops.Pairwise fun a b => ∀ p, soleFiles ops p → ¬ (a.Opens p ∧ b.Opens p) :=
    List.pairwise_iff_getElem.2 fun i j hi hj hij p hp =>
      List.pairwise_iff_getElem.1 hp i j hi hj hij
  refine ((howned.and h.bits).and hfiles).imp_of_mem fun {a b} ha hb hab hnab hnba => ?_
  obtain ⟨⟨hown, hbits⟩, hfile⟩ := hab
  refine ⟨⟨hown, hbits, ?_, ?_, fun hg => hnab (Or.inr hg), fun hg => hnba (Or.inr hg)⟩,
    fun p hp hap hbp => hfile p hp ⟨hap, hbp⟩⟩
  · exact (h.laid.reads a ha b hb).resolve_left fun hf => hnab (Or.inl hf)
  · exact (h.laid.reads b hb a ha).resolve_left fun hf => hnba (Or.inl hf)

namespace Slot

variable {F : List String → Prop} {f g : Frame}

theorem mapOperators_agree (ns : List (Numbered RankedOperator)) (hq : f.filler = g.filler)
    (h : f.AgreeOn (.whole F) g) :
    (mapOperators Operator.step ns f).1 = (mapOperators Operator.step ns g).1 ∧
      (mapOperators Operator.step ns f).2.AgreeOn (.whole F)
        (mapOperators Operator.step ns g).2 := by
  obtain ⟨hops, hend, -⟩ := mapOperators_step_agree ns (fun _ _ _ _ => trivial)
    (fun _ _ _ _ => trivial) hq h
  exact ⟨hops, hend⟩

/-- Two ways to step the same operators come to the same. -/
structure SameSteps (F : List String → Prop) (ns ms : List (Numbered RankedOperator)) (f : Frame) :
    Prop where
  operators : (mapOperators Operator.step ns f).1.Perm (mapOperators Operator.step ms f).1
  frame : (mapOperators Operator.step ns f).2.AgreeOn (.whole F)
    (mapOperators Operator.step ms f).2

theorem SameSteps.trans {ns ms ks : List (Numbered RankedOperator)} (h : SameSteps F ns ms f)
    (h' : SameSteps F ms ks f) : SameSteps F ns ks f :=
  ⟨h.operators.trans h'.operators, h.frame.trans h'.frame⟩

theorem SameSteps.cons {ns ms : List (Numbered RankedOperator)} {n : Numbered RankedOperator}
    (h : SameSteps F ns ms (n.node.operator.step f).2) : SameSteps F (n :: ns) (n :: ms) f :=
  ⟨h.operators.cons _, h.frame⟩

theorem sameSteps_swap {m n : Numbered RankedOperator} (ns : List (Numbered RankedOperator))
    (hq : f.filler.strategy = .direct) (hmn : m.node.operator.Independent n.node.operator)
    (hF : ∀ p, F p → m.node.operator.Opens p → ¬ n.node.operator.Opens p) :
    SameSteps F (m :: n :: ns) (n :: m :: ns) f := by
  obtain ⟨hn, hm, hframe⟩ := hmn.step_comm hF hq
  have hfillerm := m.node.operator.filler_step hq
  have hfillern := n.node.operator.filler_step hq
  have hfiller : (n.node.operator.step (m.node.operator.step f).2).2.filler =
      (m.node.operator.step (n.node.operator.step f).2).2.filler := by
    rw [n.node.operator.filler_step (hfillerm.symm ▸ hq), hfillerm,
      m.node.operator.filler_step (hfillern.symm ▸ hq), hfillern]
  obtain ⟨hns, hend⟩ := mapOperators_agree ns hfiller hframe
  refine ⟨?_, hend⟩
  simp only [mapOperators_cons, hn, hm, hns]
  exact .swap _ _ _

/-- An operator may step ahead of those that it neither needs nor feeds. -/
theorem sameSteps_front {n : Numbered RankedOperator} {ns : List (Numbered RankedOperator)}
    (ms : List (Numbered RankedOperator)) (hq : f.filler.strategy = .direct)
    (hn : ∀ m ∈ ns, m.node.operator.Independent n.node.operator ∧
      ∀ p, F p → m.node.operator.Opens p → ¬ n.node.operator.Opens p) :
    SameSteps F (ns ++ n :: ms) (n :: (ns ++ ms)) f := by
  induction ns generalizing f with
  | nil => exact ⟨.refl _, .refl _ _⟩
  | cons m ns ih =>
    obtain ⟨⟨hmn, hF⟩, hns⟩ := List.forall_mem_cons.1 hn
    have hq' : (m.node.operator.step f).2.filler.strategy = .direct := by
      rw [m.node.operator.filler_step hq, hq]
    exact (ih hq' hns).cons.trans (sameSteps_swap (ns ++ ms) hq hmn hF)

/-- Orders that both respect the dependencies come to the same. -/
theorem sameSteps_perm {ns ms : List (Numbered RankedOperator)} (hq : f.filler.strategy = .direct)
    (hperm : ns.Perm ms) (hns : ns.Pairwise fun a b => ¬ b.node.operator.Precedes a.node.operator)
    (hms : ms.Pairwise fun a b => ¬ b.node.operator.Precedes a.node.operator)
    (hchange : ms.Pairwise fun a b => a.node.operator.MayChange F b.node.operator) :
    SameSteps F ns ms f := by
  induction ms generalizing ns f with
  | nil =>
    rw [hperm.eq_nil]
    exact ⟨.refl _, .refl _ _⟩
  | cons n ms ih =>
    obtain ⟨before, behind, rfl⟩ := List.append_of_mem (hperm.symm.subset List.mem_cons_self)
    have hrest : (before ++ behind).Perm ms := (List.perm_middle.symm.trans hperm).cons_inv
    have hfree : ∀ m ∈ before, m.node.operator.Independent n.node.operator ∧
        ∀ p, F p → m.node.operator.Opens p → ¬ n.node.operator.Opens p := by
      intro m hm
      have hmem : m ∈ ms := hrest.subset (List.mem_append_left _ hm)
      have hnm := (List.pairwise_append.1 hns).2.2 m hm n List.mem_cons_self
      have hmn := List.rel_of_pairwise_cons hms hmem
      exact (List.rel_of_pairwise_cons hchange hmem).symm hmn hnm
    have hsub : (before ++ behind).Sublist (before ++ n :: behind) :=
      (List.sublist_cons_self n behind).append_left before
    have hq' : (n.node.operator.step f).2.filler.strategy = .direct := by
      rw [n.node.operator.filler_step hq, hq]
    exact (sameSteps_front behind hq hfree).trans
      (ih hq' hrest (hns.sublist hsub) (List.Pairwise.of_cons hms)
        (List.Pairwise.of_cons hchange)).cons

end Slot

def Frame.direct (f : Frame) : Frame := { f with filler := ⟨.direct, 0, []⟩ }

theorem Frame.defers_direct (f : Frame) (B : Nat → Prop) : f.Defers B f.filler.queue f.direct :=
  ⟨⟨[], rfl, by simp, fun _ => rfl⟩, rfl, rfl, rfl, rfl⟩

namespace Graph

/-- Two ways to end an event come to the same. -/
structure SameEnd (ops : List Operator) (x y : Graph × Slot) : Prop where
  /-- Each operator, found by its number, is in the same state. -/
  operators : x.2.operators.Perm y.2.operators
  sources : x.2.sources = y.2.sources
  bits : x.2.bits = y.2.bits
  /-- Outputs and bins are the same. -/
  contents : ∀ i, x.1.arena.store.read i = y.1.arena.store.read i
  files : ∀ place, soleFiles ops place → x.1.volume.find? place = y.1.volume.find? place

/-- Bins may wait in the queue meanwhile: after the flush this cannot be told. -/
theorem sameEnd_of_steps {g : Graph} {s : Slot} {order : List (Numbered RankedOperator)}
    (hl : Laid s.nodes) (hperm : order.Perm s.operators)
    (h : Slot.SameSteps (soleFiles s.nodes) order s.operators (g.frame s).direct) :
    SameEnd s.nodes (g.endEventSlot { s with operators := order }) (g.endEventSlot s) := by
  have hdefers := fun (ns : List (Numbered RankedOperator)) (hns : ns ⊆ s.operators) =>
    Slot.mapOperators_defers (fun n hn =>
      hl.bins n.node.operator (List.mem_map.2 ⟨n, hns hn, rfl⟩)) ((g.frame s).defers_direct _)
  obtain ⟨hops, hd⟩ := hdefers order hperm.subset
  obtain ⟨hops', hd'⟩ := hdefers s.operators (List.Subset.refl _)
  refine ⟨?_, rfl, ?_, fun i => ?_, fun place hp => ?_⟩
  · change (Slot.mapOperators Operator.step order (g.frame s)).1.Perm
      (Slot.mapOperators Operator.step s.operators (g.frame s)).1
    rw [hops, hops']
    exact h.operators
  · change (Slot.mapOperators Operator.step order (g.frame s)).2.bits =
      (Slot.mapOperators Operator.step s.operators (g.frame s)).2.bits
    rw [hd.bits_eq, hd'.bits_eq]
    exact ConditionBits.eq_of_test h.frame.length_eq fun i => h.frame.bits i trivial
  · refine (hd.read_flush i).trans (Eq.trans ?_ (hd'.read_flush i).symm)
    rw [hd.slots_eq, hd'.slots_eq, h.frame.store.slots_eq, h.frame.store.read_eq i trivial]
  · change (Slot.mapOperators Operator.step order (g.frame s)).2.volume.find? place =
      (Slot.mapOperators Operator.step s.operators (g.frame s)).2.volume.find? place
    rw [hd.volume_eq, hd'.volume_eq]
    exact h.frame.volume.files place hp

open Workbench in
/-- Whatever calls made a plan, and in whatever state an event of it is: operators may step in any
order that respects their dependencies. -/
theorem sameEnd_reordered (capacity : Nat) (strategy : FillStrategy) (calls : List BuildCall)
    (event : Nat) (e : EventPlan) (g : Graph) (s : Slot) (order : List (Numbered RankedOperator))
    (he : (after capacity strategy calls).plan.events[event]? = some e)
    (hfirst : e.operators.Pairwise fun a b => ¬ b.operator.Feeds a.operator)
    (hstate : s.operators.map (Numbered.map RankedOperator.resting) =
      e.slot.operators.map (Numbered.map RankedOperator.resting))
    (hperm : order.Perm s.operators)
    (horder : order.Pairwise fun a b => ¬ b.node.operator.Precedes a.node.operator) :
    SameEnd s.nodes (g.endEventSlot { s with operators := order }) (g.endEventSlot s) := by
  have hin := (sound_after capacity strategy calls).inOrder (List.mem_of_getElem? he) hfirst
  have hnodes : s.nodes.map Operator.resting = e.slot.nodes.map Operator.resting := by
    have h := congrArg (List.map fun n : Numbered RankedOperator => n.node.operator) hstate
    simpa [Slot.nodes, Numbered.map, RankedOperator.resting, Function.comp_def] using h
  have hs : InOrder s.nodes := hin.of_resting hnodes
  refine sameEnd_of_steps hs.laid hperm (Slot.sameSteps_perm rfl hperm horder ?_ ?_)
  · exact List.pairwise_map.1 hs.order
  · exact List.pairwise_map.1 hs.mayChange

/-- A chain with one more filter, which stands ahead of the conditions by its rank. -/
def forkedChain : List BuildCall :=
  filterChain ++ [.makeOperator (.rangeFilter ⟨⟨0, 2⟩, ⟨4, 2⟩, ⟨8, 2⟩⟩ .unbounded true),
    .addOperator 0 0 none]

open Workbench in
theorem sameEnd_forkedChain :
    ∃ (e : EventPlan) (g : Graph), (after 4096 .batched forkedChain).plan.events[0]? = some e ∧
      e.operators.map RankedOperator.rank = [1, 2, 3, 1] ∧
        SameEnd e.slot.nodes (g.endEventSlot { e.slot with operators := numbered e.operators })
          (g.endEventSlot e.slot) := by
  have he := List.getElem?_eq_getElem
    (show 0 < (after 4096 .batched forkedChain).plan.events.length by decide +kernel)
  exact ⟨_, (after 4096 .batched forkedChain).plan.build .fresh, he, by decide +kernel,
    sameEnd_reordered 4096 .batched forkedChain 0 _ _ _ _ he (by decide +kernel) rfl
      (sortBy_perm RankedOperator.rank _).symm (by decide +kernel)⟩

end Graph

end Readout
