import Readout.Proofs.Graph.Contained
import Readout.Proofs.Graph.Reorder
import Readout.Proofs.Operator.Tied

/-!
# Graphs with their operators in another order

Two graphs are tied when their sources are the same and lie in the same place, and when each
operator of one has a counterpart in the other that it is tied to, whatever the orders in which
they stand. An event steps the operators of both in an order that respects the dependencies, and
these are the same for both; so all calls of a run keep the ties.
-/
namespace Readout

theorem ConditionBits.Tied.clear {B : Ties} {b c : ConditionBits} (h : b.Tied B c) :
    b.clear.Tied B c.clear :=
  ⟨h.unique, fun k l hkl => b.length_clear.symm ▸ h.left k l hkl,
    fun k l hkl => c.length_clear.symm ▸ h.right k l hkl, fun k l _ => by
      rw [test_clear, test_clear]⟩

namespace Slot

variable {R B : Ties} {M : Nat → Nat → Prop}

/-- Operators with numbers that belong together. -/
structure Paired (R B : Ties) (M : Nat → Nat → Prop) (n m : Numbered RankedOperator) : Prop where
  index : M n.index m.index
  operator : n.node.operator.Tied R B m.node.operator

/-- What the sources of a slot own. -/
def sourceCells (s : Slot) (i : Nat) : Prop := ∃ n ∈ s.sources, ∃ p ∈ n.node.owned, i ∈ p

structure Tied (R B : Ties) (M : Nat → Nat → Prop) (s t : Slot) : Prop where
  sources : s.sources = t.sources
  anchored : ∀ i, s.sourceCells i → R i i
  operators : ∃ ms, List.Forall₂ (Paired R B M) s.operators ms ∧ ms.Perm t.operators
  bits : s.bits.Tied B t.bits

theorem sourceCells_of_resting {s t : Slot} (h : s.resting = t.resting) {i : Nat} :
    s.sourceCells i ↔ t.sourceCells i := by
  have hcells : ∀ s : Slot, s.sourceCells i ↔ s.resting.sourceCells i := by
    intro s
    simp only [sourceCells, resting, List.mem_map, exists_exists_and_eq_and]
    exact Iff.rfl
  rw [hcells, h, ← hcells]

theorem sourceCells_spares (s : Slot) : ∀ n ∈ s.sources, n.node.Spares fun i => ¬ s.sourceCells i :=
  fun n hn p hp _ hi hnot => hnot ⟨n, hn, p, n.node.written_subset hp, hi⟩

/-- Each operator has become what a phase makes of it on some frame. -/
def Became (φ : Operator → Frame → Operator × Frame) (Q : Frame → Prop) :=
  List.Forall₂ fun n n' : Numbered RankedOperator =>
    ∃ f, Q f ∧ n' = { n with node := { n.node with operator := (φ n.node.operator f).1 } }

theorem became_mapOperators {φ : Operator → Frame → Operator × Frame} {Q : Frame → Prop}
    (hQ : ∀ op f, Q f → Q (φ op f).2) (ns : List (Numbered RankedOperator)) {f : Frame}
    (hf : Q f) : Became φ Q ns (mapOperators φ ns f).1 := by
  induction ns generalizing f with
  | nil => exact .nil
  | cons n ns ih =>
    rw [mapOperators_cons]
    exact .cons ⟨f, hf, rfl⟩ (ih (hQ _ _ hf))

theorem paired_of_became {φ : Operator → Frame → Operator × Frame} {Q P : Frame → Prop}
    (hφ : ∀ op op' f g, Operator.Tied R B op op' → Q f → P g →
      Operator.Tied R B (φ op f).1 (φ op' g).1)
    {ns ms ns' ms' : List (Numbered RankedOperator)} (h : List.Forall₂ (Paired R B M) ns ms)
    (hn : Became φ Q ns ns') (hm : Became φ P ms ms') : List.Forall₂ (Paired R B M) ns' ms' := by
  induction h generalizing ns' ms' with
  | nil =>
    cases hn
    cases hm
    exact .nil
  | cons hnm _ ih =>
    obtain _ | ⟨⟨f, hf, rfl⟩, hn⟩ := hn
    obtain _ | ⟨⟨g, hg, rfl⟩, hm⟩ := hm
    exact .cons ⟨hnm.index, hφ _ _ f g hnm.operator hf hg⟩ (ih hn hm)

/-- In a phase in which operators do not see what other ones do, their order does not matter. -/
theorem Tied.phase {φ : Operator → Frame → Operator × Frame} {Q P : Frame → Prop} {s t : Slot}
    (h : s.Tied R B M t) (hQ : ∀ op f, Q f → Q (φ op f).2) (hP : ∀ op f, P f → P (φ op f).2)
    (hφ : ∀ op op' f g, Operator.Tied R B op op' → Q f → P g →
      Operator.Tied R B (φ op f).1 (φ op' g).1)
    {f g : Frame} (hf : Q f) (hg : P g) :
    ∃ ms, List.Forall₂ (Paired R B M) (mapOperators φ s.operators f).1 ms ∧
      ms.Perm (mapOperators φ t.operators g).1 := by
  obtain ⟨ms, hpaired, hperm⟩ := h.operators
  obtain ⟨ms', hbecame, hperm'⟩ :=
    List.perm_comp_forall₂ hperm (became_mapOperators hP t.operators hg)
  exact ⟨ms', paired_of_became hφ hpaired (became_mapOperators hQ s.operators hf) hbecame, hperm'⟩

theorem steps_tied {ns ms : List (Numbered RankedOperator)}
    (h : List.Forall₂ (Paired R B M) ns ms) {f g : Frame} (hf : f.Tied R B g) :
    List.Forall₂ (Paired R B M) (mapOperators Operator.step ns f).1
        (mapOperators Operator.step ms g).1 ∧
      (mapOperators Operator.step ns f).2.Tied R B (mapOperators Operator.step ms g).2 := by
  induction h generalizing f g with
  | nil => exact ⟨.nil, hf⟩
  | cons hn _ ih =>
    obtain ⟨hop, hnext⟩ := hn.operator.step hf
    obtain ⟨hops, hend⟩ := ih hnext
    rw [mapOperators_cons, mapOperators_cons]
    exact ⟨.cons ⟨hn.index, hop⟩ hops, hend⟩

/-- Counterparts of operators in order are in order. -/
theorem pairwise_tied {ns ms : List (Numbered RankedOperator)}
    (h : List.Forall₂ (Paired R B M) ns ms) (hR : R.Unique) (hB : B.Unique)
    (hns : ns.Pairwise fun a b => ¬ b.node.operator.Precedes a.node.operator) :
    ms.Pairwise fun a b => ¬ b.node.operator.Precedes a.node.operator := by
  induction h with
  | nil => exact .nil
  | cons hn h ih =>
    obtain ⟨hfirst, hrest⟩ := List.pairwise_cons.1 hns
    refine List.pairwise_cons.2 ⟨fun m hm hp => ?_, ih hrest⟩
    obtain ⟨k, hk, hkm⟩ := exists_of_mem_right h hm
    exact hfirst k hk (hkm.operator.precedes hn.operator hR hB hp)

theorem store_beginRun (ns : List (Numbered RankedOperator)) (f : Frame) :
    (mapOperators Operator.beginRun ns f).2.store =
      f.store.fillAll (ns.flatMap fun n => n.node.operator.kind.cleared) := by
  induction ns generalizing f with
  | nil => rfl
  | cons n ns ih =>
    rw [mapOperators_cons, List.flatMap_cons, ih, Operator.beginRun_store, Store.fillAll,
      Store.fillAll, Store.fillAll, List.foldl_append]

theorem apart_cleared {s : Slot} (h : Laid s.nodes) :
    (s.operators.flatMap fun n => n.node.operator.kind.cleared).Pairwise
      fun x y => x.1.Apart y.1 := by
  have hsub : (s.operators.flatMap fun n => n.node.operator.kind.cleared.map Prod.fst).Sublist
      (s.nodes.flatMap Operator.owned) := by
    rw [nodes, List.flatMap_map]
    refine List.Sublist.flatMap_right _ fun n _ => ?_
    rw [Kind.spans_cleared, Operator.owned, Kind.memory_eq, List.append_assoc, List.append_assoc]
    exact (List.sublist_append_right _ _).trans (List.sublist_append_right _ _)
  have hspans := h.apart.sublist hsub
  rwa [← List.map_flatMap, List.pairwise_map] at hspans

theorem cleared_tied {ns ms : List (Numbered RankedOperator)}
    (h : List.Forall₂ (Paired R B M) ns ms) :
    List.Forall₂ (fun x y => x.1.Tied R y.1 ∧ x.2 = y.2)
      (ns.flatMap fun n => n.node.operator.kind.cleared)
      (ms.flatMap fun n => n.node.operator.kind.cleared) := by
  induction h with
  | nil => exact .nil
  | cons hn _ ih =>
    rw [List.flatMap_cons, List.flatMap_cons]
    exact List.rel_append hn.operator.kind.cleared ih

/-- What operators clear when a run begins, they clear in whatever order. -/
theorem Tied.beginRun_store {s t : Slot} (h : s.Tied R B M t) (ht : Laid t.nodes) {f g : Frame}
    (hst : f.store.Tied R g.store) :
    (mapOperators Operator.beginRun s.operators f).2.store.Tied R
      (mapOperators Operator.beginRun t.operators g).2.store := by
  obtain ⟨ms, hpaired, hperm⟩ := h.operators
  have hcleared := hperm.flatMap_right fun n : Numbered RankedOperator =>
    n.node.operator.kind.cleared
  have hapart := (apart_cleared ht).perm hcleared.symm fun hab => hab.symm
  rw [store_beginRun, store_beginRun]
  exact (hst.fillAll (cleared_tied hpaired)).agree_right
    (Store.fillAll_perm hcleared hapart (.refl _ g.store))

end Slot

namespace Graph

variable {R B : Ties} {M : Nat → Nat → Prop} {g h : Graph} {s t : Slot}

/-- Bins are incremented at once. -/
structure Direct (g : Graph) : Prop where
  strategy : g.filler.strategy = .direct
  queue : g.filler.queue = []

/-- Slots of two graphs that are tied, in a state in which they can take a call. -/
structure Facing (R B : Ties) (M : Nat → Nat → Prop) (g h : Graph) (s t : Slot) : Prop where
  store : g.arena.store.Tied R h.arena.store
  left : g.Direct
  right : h.Direct
  slot : s.Tied R B M t
  contained : s.Contained g.arena.store.slots
  contained' : t.Contained h.arena.store.slots

/-- A function of slots that keeps ties. -/
structure TiedStep (φ : Graph → Slot → Graph × Slot) : Prop where
  confined : Confined φ
  store : ∀ {R B M g h s t}, Facing R B M g h s t →
    (φ g s).1.arena.store.Tied R (φ h t).1.arena.store
  slot : ∀ {R B M g h s t}, Facing R B M g h s t → (φ g s).2.Tied R B M (φ h t).2

theorem Facing.frame (h' : Facing R B M g h s t) : (g.frame s).Tied R B (h.frame t) :=
  ⟨h'.store, h'.slot.bits, h'.left.strategy, h'.right.strategy⟩

/-- Sources lie in the same place on both sides, so they become the same. -/
theorem Facing.agree (h' : Facing R B M g h s t) :
    g.arena.store.AgreeOn s.sourceCells h.arena.store :=
  h'.store.agree h'.slot.anchored

theorem Facing.within (h' : Facing R B M g h s t) {st st' : Store}
    (hst : st.AgreeOn s.sourceCells st')
    (hs : g.arena.store.AgreeOn (fun i => ¬ s.sourceCells i) st)
    (ht : h.arena.store.AgreeOn (fun i => ¬ s.sourceCells i) st') : st.Tied R st' :=
  h'.store.within h'.slot.anchored hst hs ht

/-- The beginning of a run, for the sources. -/
theorem Facing.beginRun_sources (h' : Facing R B M g h s t) :
    (Slot.mapSources (fun n st => (n, n.beginRun st)) s.sources g.arena.store).1 =
        (Slot.mapSources (fun n st => (n, n.beginRun st)) t.sources h.arena.store).1 ∧
      Store.Tied R (Slot.mapSources (fun n st => (n, n.beginRun st)) s.sources g.arena.store).2
        (Slot.mapSources (fun n st => (n, n.beginRun st)) t.sources h.arena.store).2 := by
  rw [← h'.slot.sources]
  obtain ⟨hsrc, hst⟩ := Slot.mapSources_agree (φ := fun n st => (n, n.beginRun st))
    (fun n s t hst => ⟨rfl, n.agree_beginRun hst⟩) s.sources h'.agree
  have hframe := fun st : Store => Slot.mapSources_frame (φ := fun n st => (n, n.beginRun st))
    (fun _ st hn => Source.beginRun_frame hn st) s.sourceCells_spares st
  exact ⟨hsrc, h'.within hst (hframe _) (hframe _)⟩

theorem tiedStep_beginRunSlot : TiedStep beginRunSlot := by
  refine ⟨confined_beginRunSlot, fun {R B M g h s t} h' => ?_, fun {R B M g h s t} h' => ?_⟩
  · obtain ⟨-, hst⟩ := h'.beginRun_sources
    exact h'.slot.beginRun_store h'.contained'.order.laid
      (f := (g.withStore (Slot.mapSources (fun n st => (n, n.beginRun st)) s.sources
        g.arena.store).2).frame s)
      (g := (h.withStore (Slot.mapSources (fun n st => (n, n.beginRun st)) t.sources
        h.arena.store).2).frame t) hst
  · obtain ⟨hsrc, -⟩ := h'.beginRun_sources
    have hops := h'.slot.phase (φ := Operator.beginRun) (Q := fun _ => True) (P := fun _ => True)
      (fun _ _ _ => trivial) (fun _ _ _ => trivial)
      (fun op op' f g hop _ _ => hop.beginRun f g)
      (f := (g.withStore (Slot.mapSources (fun n st => (n, n.beginRun st)) s.sources
        g.arena.store).2).frame s)
      (g := (h.withStore (Slot.mapSources (fun n st => (n, n.beginRun st)) t.sources
        h.arena.store).2).frame t) trivial trivial
    refine ⟨hsrc, fun i hi => h'.slot.anchored i ?_, hops, h'.slot.bits.clear⟩
    exact (Slot.sourceCells_of_resting (keeps_beginRunSlot.resting g s)).1 hi

theorem tiedStep_beginEventSlot : TiedStep beginEventSlot := by
  have hsources : ∀ {R B M g h s t}, Facing R B M g h s t →
      (Slot.mapSources Source.beginEvent s.sources g.arena.store).1 =
        (Slot.mapSources Source.beginEvent t.sources h.arena.store).1 ∧
      Store.Tied R (Slot.mapSources Source.beginEvent s.sources g.arena.store).2
        (Slot.mapSources Source.beginEvent t.sources h.arena.store).2 := by
    intro R B M g h s t h'
    rw [← h'.slot.sources]
    obtain ⟨hsrc, hst⟩ := Slot.mapSources_agree (fun n _ _ hst => n.agree_beginEvent hst)
      s.sources h'.agree
    have hframe := fun st : Store => Slot.mapSources_frame
      (fun _ st hn => Source.beginEvent_frame hn st) s.sourceCells_spares st
    exact ⟨hsrc, h'.within hst (hframe _) (hframe _)⟩
  refine ⟨confined_beginEventSlot, fun h' => (hsources h').2, fun {R B M g h s t} h' => ?_⟩
  refine ⟨(hsources h').1, fun i hi => h'.slot.anchored i ?_, h'.slot.operators,
    h'.slot.bits.clear⟩
  exact (Slot.sourceCells_of_resting (keeps_beginEventSlot.resting g s)).1 hi

theorem tiedStep_feedSlot (moduleIndex : Nat) (words : List UInt32) :
    TiedStep (feedSlot moduleIndex words) := by
  have hsources : ∀ {R B M g h s t}, Facing R B M g h s t →
      (Slot.feedSources moduleIndex words s.sources g.arena.store).1 =
        (Slot.feedSources moduleIndex words t.sources h.arena.store).1 ∧
      Store.Tied R (Slot.feedSources moduleIndex words s.sources g.arena.store).2
        (Slot.feedSources moduleIndex words t.sources h.arena.store).2 := by
    intro R B M g h s t h'
    rw [← h'.slot.sources]
    have hseen : ∀ n ∈ s.sources, Source.SeenIn
        { n.node with decoder := (n.node.decoder.decode words).2.1 } s.sourceCells
        (n.node.decoder.decode words).1 := fun n hn =>
      (h'.contained.sources n hn).seenIn words fun p hp i hi => ⟨n, hn, p.data,
        List.mem_append_left _ (List.mem_flatMap.2 ⟨p, hp, p.data_mem_spans⟩), hi⟩
    obtain ⟨hsrc, hst⟩ := Slot.feedSources_agree moduleIndex words s.sources hseen h'.agree
    have hframe := fun st : Store =>
      Slot.feedSources_frame moduleIndex words s.sourceCells_spares st
    exact ⟨hsrc, h'.within hst (hframe _) (hframe _)⟩
  refine ⟨confined_feedSlot moduleIndex words, fun h' => (hsources h').2,
    fun {R B M g h s t} h' => ?_⟩
  refine ⟨(hsources h').1, fun i hi => h'.slot.anchored i ?_, h'.slot.operators, h'.slot.bits⟩
  exact (Slot.sourceCells_of_resting ((keeps_feedSlot moduleIndex words).resting g s)).1 hi

/-- What an event comes to, whichever of the two orders its operators stand in. -/
theorem Facing.steps (h' : Facing R B M g h s t) :
    (∃ ms, List.Forall₂ (Slot.Paired R B M)
        (Slot.mapOperators Operator.step s.operators (g.frame s)).1 ms ∧
      ms.Perm (Slot.mapOperators Operator.step t.operators (h.frame t)).1) ∧
    (Slot.mapOperators Operator.step s.operators (g.frame s)).2.Tied R B
      (Slot.mapOperators Operator.step t.operators (h.frame t)).2 := by
  obtain ⟨ms, hpaired, hperm⟩ := h'.slot.operators
  obtain ⟨hops, hframe⟩ := Slot.steps_tied hpaired h'.frame
  have hms := Slot.pairwise_tied hpaired h'.store.unique h'.slot.bits.unique
    (List.pairwise_map.1 h'.contained.order.order)
  have hsame := Slot.sameSteps_perm (f := h.frame t) h'.right.strategy hperm hms
    (List.pairwise_map.1 h'.contained'.order.order)
    (List.pairwise_map.1 h'.contained'.order.mayChange)
  have hbits : (Slot.mapOperators Operator.step ms (h.frame t)).2.bits =
      (Slot.mapOperators Operator.step t.operators (h.frame t)).2.bits :=
    ConditionBits.eq_of_test hsame.frame.length_eq fun i => hsame.frame.bits i trivial
  refine ⟨⟨_, hops, hsame.operators⟩, hframe.store.agree_right hsame.frame.store,
    hbits ▸ hframe.bits, hframe.left, ?_⟩
  rw [Slot.filler_mapOperators_direct t.operators h'.right.strategy]
  exact h'.right.strategy

/-- Where bins are incremented at once, nothing is left to flush. -/
theorem Direct.flush (hg : g.Direct) (s : Slot) :
    Store.Same (Slot.mapOperators Operator.step s.operators (g.frame s)).2.store
      (endEventSlot g s).1.arena.store := by
  have hfiller := Slot.filler_mapOperators_direct s.operators (f := g.frame s) hg.strategy
  refine ⟨(Filler.slots_flush _ _).symm, fun i _ => (Filler.read_flush_nil ?_ _ i).symm⟩
  rw [hfiller]
  exact hg.queue

theorem tiedStep_endEventSlot : TiedStep endEventSlot := by
  refine ⟨confined_endEventSlot, fun {R B M g h s t} h' => ?_, fun h' => ?_⟩
  · exact (h'.steps.2.store.agree_right (h'.right.flush t)).agree_left (h'.left.flush s)
  · exact ⟨h'.slot.sources, h'.slot.anchored, h'.steps.1, h'.steps.2.bits⟩

theorem tiedStep_tickSlot : TiedStep tickSlot := by
  refine ⟨confined_tickSlot, fun h' => h'.store, fun {R B M g h s t} h' => ?_⟩
  have hops := h'.slot.phase (φ := fun op f => (op.tick f.store, f))
    (Q := fun f => f.store = g.arena.store) (P := fun f => f.store = h.arena.store)
    (fun _ _ => id) (fun _ _ => id)
    (fun op op' f k hop hf hk => hop.tick (hf.symm ▸ hk.symm ▸ h'.store))
    (f := g.frame s) (g := h.frame t) rfl rfl
  exact ⟨h'.slot.sources, h'.slot.anchored, hops, h'.slot.bits⟩

theorem tiedStep_endRunSlot : TiedStep endRunSlot := by
  have hstore : ∀ (ns : List (Numbered RankedOperator)) (f : Frame),
      (Slot.mapOperators Operator.endRun ns f).2.store = f.store := fun ns f =>
    Slot.mapOperators_chain (T := fun f k => k.store = f.store) (fun _ => rfl)
      (fun hfg hgk => hgk.trans hfg) (fun n _ f => n.node.operator.store_endRun f) f
  refine ⟨confined_endRunSlot, fun {R B M g h s t} h' => ?_, fun {R B M g h s t} h' => ?_⟩
  · change Store.Tied R (Slot.mapOperators Operator.endRun s.operators _).2.store
      (Slot.mapOperators Operator.endRun t.operators _).2.store
    rw [hstore, hstore]
    exact h'.store
  · have hops := h'.slot.phase (φ := Operator.endRun) (Q := fun _ => True) (P := fun _ => True)
      (fun _ _ _ => trivial) (fun _ _ _ => trivial)
      (fun op op' f g hop _ _ => hop.endRun f g) (f := g.frame s) (g := h.frame t) trivial trivial
    exact ⟨h'.slot.sources, h'.slot.anchored, hops, h'.slot.bits⟩

/-- Graphs whose events are tied one by one. -/
structure Tied (R : Ties) (B : Nat → Ties) (M : Nat → Nat → Nat → Prop) (g h : Graph) : Prop where
  store : g.arena.store.Tied R h.arena.store
  left : g.Idling
  right : h.Idling
  direct : g.filler.strategy = .direct
  direct' : h.filler.strategy = .direct
  slots : ∀ j, Option.Rel (Slot.Tied R (B j) (M j)) g.slots[j]? h.slots[j]?

variable {E : Nat → Ties} {N : Nat → Nat → Nat → Prop} {φ : Graph → Slot → Graph × Slot}

theorem strategy_onSlot (hφ : Keeps φ) (g : Graph) (event : Nat) :
    (g.onSlot event φ).filler.strategy = g.filler.strategy :=
  congrArg (fun l => l.filler.strategy) (layout_onSlot hφ g event)

theorem Tied.onSlot (h' : g.Tied R E N h) (hφ : TiedStep φ) (i : Nat) :
    (g.onSlot i φ).Tied R E N (h.onSlot i φ) := by
  have hslots := slots_onSlot hφ.confined.keeps g i
  have hslots' := slots_onSlot hφ.confined.keeps h i
  have hi := h'.slots i
  cases hs : g.slots[i]? with
  | none =>
    rw [hs] at hi
    cases ht : h.slots[i]? with
    | none =>
      rw [onSlot_of_none hs, onSlot_of_none ht]
      exact h'
    | some t =>
      rw [ht] at hi
      cases hi
  | some s =>
    rw [hs] at hi
    cases ht : h.slots[i]? with
    | none =>
      rw [ht] at hi
      cases hi
    | some t =>
      rw [ht] at hi
      obtain hst | _ := hi
      have hfacing : Facing R (E i) (N i) g h s t :=
        ⟨h'.store, ⟨h'.direct, h'.left.queue⟩, ⟨h'.direct', h'.right.queue⟩, hst,
          h'.left.contained.slots s (List.mem_of_getElem? hs),
          h'.right.contained.slots t (List.mem_of_getElem? ht)⟩
      refine ⟨?_, h'.left.onSlot hφ.confined i, h'.right.onSlot hφ.confined i,
        (strategy_onSlot hφ.confined.keeps g i).trans h'.direct,
        (strategy_onSlot hφ.confined.keeps h i).trans h'.direct', fun j => ?_⟩
      · rw [onSlot_of_some hs, onSlot_of_some ht]
        exact hφ.store hfacing
      · rw [hslots, hslots']
        split
        · next hij =>
          rw [← hij, hs, ht]
          exact .some (hφ.slot hfacing)
        · exact h'.slots j

theorem Tied.onSlots (h' : g.Tied R E N h) (hφ : TiedStep φ) :
    (g.onSlots φ).Tied R E N (h.onSlots φ) :=
  onSlots_related (Q := fun _ g h => g.Tied R E N h) (fun i _ _ hgh => hgh.onSlot hφ i)
    (h'.right.contained.count.trans h'.left.contained.count.symm) h'

theorem Tied.recount (h' : g.Tied R E N h) (b : Bool) (m n : Nat) (b' : Bool) (m' n' : Nat) :
    Tied R E N { g with running := b, events := m, ticks := n }
      { h with running := b', events := m', ticks := n' } :=
  ⟨h'.store, h'.left.recount _ _ _, h'.right.recount _ _ _, h'.direct, h'.direct', h'.slots⟩

theorem Tied.apply (h' : g.Tied R E N h) (c : RunCall) : (c.apply g).Tied R E N (c.apply h) := by
  cases c with
  | beginRun => exact (h'.onSlots tiedStep_beginRunSlot).recount _ _ _ _ _ _
  | endRun => exact (h'.onSlots tiedStep_endRunSlot).recount _ _ _ _ _ _
  | during c =>
    cases c with
    | beginEvent event => exact h'.onSlot tiedStep_beginEventSlot event
    | feed event moduleIndex words => exact h'.onSlot (tiedStep_feedSlot moduleIndex words) event
    | endEvent event => exact h'.onSlot tiedStep_endEventSlot event
    | tick => exact (h'.onSlots tiedStep_tickSlot).recount _ _ _ _ _ _

theorem Tied.run (h' : g.Tied R E N h) (calls : List RunCall) :
    (calls.foldl RunCall.apply g).Tied R E N (calls.foldl RunCall.apply h) := by
  induction calls generalizing g h with
  | nil => exact h'
  | cons c calls ih => exact ih (h'.apply c)

end Graph

end Readout
