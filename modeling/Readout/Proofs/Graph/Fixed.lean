import Readout.Proofs.Graph.Contained

/-!
# What an event is computed from

Limits of pipes and factors of calibrations are written when a node is made and never again. They
and what the sources of a slot keep are given to the operators of the slot; an operator that starts
its outputs afresh reads nothing else but the outputs of operators in front of it and what it
remembers itself.
-/
namespace Readout

namespace Source

/-- The spans that keep what they hold from the time when the source is made. -/
def fixed (src : Source) : List Span := src.outputs.flatMap Pipe.limits

theorem owned_parts (src : Source) : src.owned.Perm (src.fixed ++ src.written) := by
  have h := (Pipe.spans_perm src.outputs).append_right [src.hitCounts]
  rwa [List.append_assoc] at h

end Source

namespace Slot

/-- The spans of a slot that no call writes. -/
def fixed (s : Slot) : List Span :=
  s.sources.flatMap (fun n => n.node.fixed) ++ s.nodes.flatMap Operator.fixed

/-- The spans of a slot that calls write. -/
def changing (s : Slot) : List Span :=
  s.sources.flatMap (fun n => n.node.written) ++
    s.nodes.flatMap fun op => op.written ++ op.kind.bins

/-- The constants of a slot and what its sources keep. -/
def given (s : Slot) (i : Nat) : Prop :=
  (∃ p ∈ s.fixed, i ∈ p) ∨ ∃ n ∈ s.sources, ∃ p ∈ n.node.outputs, i ∈ p.data

theorem owned_parts (s : Slot) : s.owned.Perm (s.fixed ++ s.changing) := by
  have hsources := (List.Perm.flatMap_left s.sources fun n _ => n.node.owned_parts).trans
    (List.flatMap_append_perm s.sources (fun n => n.node.fixed) fun n => n.node.written).symm
  have hops := (List.Perm.flatMap_left s.nodes fun op _ => op.owned_parts).trans
    (List.flatMap_append_perm s.nodes Operator.fixed fun op => op.written ++ op.kind.bins).symm
  refine (hsources.append hops).trans ?_
  rw [fixed, changing, List.append_assoc, List.append_assoc]
  refine List.Perm.append_left _ ?_
  rw [← List.append_assoc, ← List.append_assoc]
  exact List.perm_append_comm.append_right _

theorem fixed_resting (s : Slot) : s.resting.fixed = s.fixed := by
  rw [fixed, fixed, nodes_resting, List.flatMap_map]
  simp only [resting, List.flatMap_map, Operator.fixed_resting]
  rfl

theorem given_resting (s : Slot) : s.resting.given = s.given := by
  funext i
  simp only [given, fixed_resting]
  simp only [resting, List.mem_map, exists_exists_and_eq_and]
  rfl

theorem limits_subset_fixed {s : Slot} {p : Pipe} (hp : p ∈ s.pipes) : p.limits ⊆ s.fixed := by
  intro t ht
  rcases List.mem_append.1 hp with hp | hp
  · obtain ⟨n, hn, hp⟩ := List.mem_flatMap.1 hp
    exact List.mem_append_left _ (List.mem_flatMap.2 ⟨n, hn, List.mem_flatMap.2 ⟨p, hp, ht⟩⟩)
  · obtain ⟨op, ho, hp⟩ := List.mem_flatMap.1 hp
    refine List.mem_append_right _ (List.mem_flatMap.2 ⟨op, ho, ?_⟩)
    exact List.mem_append_left _ (List.mem_flatMap.2 ⟨p, hp, ht⟩)

/-- The outputs of the operators in front of one. -/
def filled (before : List (Numbered RankedOperator)) (i : Nat) : Prop :=
  ∃ n ∈ before, ∃ p ∈ n.node.operator.outputs, i ∈ p.data

/-- What an operator reads is given, was written by one in front of it, or is its own memory. -/
theorem Contained.reads_given {room : Nat} {s : Slot} (h : s.Contained room)
    {before behind : List (Numbered RankedOperator)} {n : Numbered RankedOperator}
    (hsplit : s.operators = before ++ n :: behind)
    (hn : n.node.operator.kind.revised n.node.operator.outputs = []) {i : Nat}
    (hi : n.node.operator.reads.slots i) :
    s.given i ∨ filled before i ∨ ∃ p ∈ n.node.operator.kind.state, i ∈ p := by
  have hnodes : s.nodes = before.map (fun m => m.node.operator) ++
      n.node.operator :: behind.map fun m => m.node.operator := by
    rw [nodes, hsplit, List.map_append, List.map_cons]
  have hop : n.node.operator ∈ s.nodes := hnodes ▸ List.mem_append_right _ List.mem_cons_self
  obtain ⟨q, hq, hiq⟩ := hi
  rcases List.mem_append.1 hq with hq | hq
  · obtain ⟨v, hv, hq⟩ := List.mem_flatMap.1 hq
    obtain ⟨p, hp, hpv⟩ := h.fed _ hop v hv
    have hinside := Pipe.inside_of_mem_views hpv
    have hlimits := limits_subset_fixed hp
    simp only [Pipe.spans, List.mem_cons, List.not_mem_nil, or_false] at hq
    rcases hq with rfl | rfl | rfl
    · rcases List.mem_append.1 hp with hp | hp
      · obtain ⟨m, hm, hp⟩ := List.mem_flatMap.1 hp
        exact Or.inl (Or.inr ⟨m, hm, p, hp, hinside.data i hiq⟩)
      · obtain ⟨op, ho, hp⟩ := List.mem_flatMap.1 hp
        -- an operator that stands behind writes nothing that is read here
        have hfront : op ∈ before.map fun m => m.node.operator := by
          have horder := h.order
          rw [hnodes] at ho horder
          refine (List.mem_append.1 ho).resolve_right fun hb => ?_
          refine (horder.sees_beyond op hb).slots p.data ?_ i (hinside.data i hiq)
            ⟨v.data, List.mem_flatMap.2 ⟨v, hv, v.data_mem_spans⟩, hiq⟩
          exact List.mem_append_left _ (Operator.mem_written_output hp)
        obtain ⟨m, hm, rfl⟩ := List.mem_map.1 hfront
        exact Or.inr (Or.inl ⟨m, hm, p, hp, hinside.data i hiq⟩)
    · exact Or.inl (Or.inl ⟨p.lower, hlimits List.mem_cons_self, hinside.lower i hiq⟩)
    · exact Or.inl (Or.inl ⟨p.upper, hlimits (List.mem_cons_of_mem _ List.mem_cons_self),
        hinside.upper i hiq⟩)
  · rw [Operator.recalled, hn, List.append_nil] at hq
    have hfixed : ∀ t ∈ n.node.operator.fixed, t ∈ s.fixed := fun t ht =>
      List.mem_append_right _ (List.mem_flatMap.2 ⟨_, hop, ht⟩)
    rcases List.mem_append.1 hq with hq | hq
    · exact Or.inl (Or.inl ⟨q, hfixed q (List.mem_append_left _ hq), hiq⟩)
    · rw [Kind.memory_eq] at hq
      rcases List.mem_append.1 hq with hq | hq
      · exact Or.inl (Or.inl ⟨q, hfixed q (List.mem_append_right _ hq), hiq⟩)
      · exact Or.inr (Or.inr ⟨q, hq, hiq⟩)

theorem Contained.inputs_even {room : Nat} {s : Slot} (h : s.Contained room) {op : Operator}
    (ho : op ∈ s.nodes) : ∀ p ∈ op.inputs ++ op.outputs, p.Even := by
  intro v hv
  rcases List.mem_append.1 hv with hv | hv
  · obtain ⟨p, hp, hpv⟩ := h.fed op ho v hv
    refine Pipe.even_of_mem_views ?_ hpv
    rcases List.mem_append.1 hp with hp | hp
    · obtain ⟨n, hn, hp⟩ := List.mem_flatMap.1 hp
      exact h.even n hn p hp
    · obtain ⟨k, hk, hp⟩ := List.mem_flatMap.1 hp
      exact h.order.laid.outputs_even k hk p hp
  · exact h.order.laid.outputs_even op ho v hv

end Slot

namespace Graph

variable {g : Graph} {s t : Slot}

/-- No call reaches the constants of a slot. -/
theorem Wired.fixed_apart (h : g.Wired) (hs : s ∈ g.slots) (ht : t ∈ g.slots) :
    ∀ p ∈ s.fixed, ∀ q ∈ t.changing, p.Apart q := by
  have hparts := (List.Perm.flatMap_left g.slots fun s _ => s.owned_parts).trans
    (List.flatMap_append_perm g.slots Slot.fixed Slot.changing).symm
  have hapart := List.pairwise_append.1 (h.apart.perm hparts fun k => k.symm)
  exact fun p hp q hq => hapart.2.2 p (List.mem_flatMap.2 ⟨s, hs, hp⟩) q
    (List.mem_flatMap.2 ⟨t, ht, hq⟩)

theorem Wired.fixed_outside (h : g.Wired) (hs : s ∈ g.slots) (ht : t ∈ g.slots) :
    Region.Outside ⟨fun i => ∃ p ∈ s.fixed, i ∈ p, fun _ => False, fun _ => False⟩ t := by
  have hapart := h.fixed_apart hs ht
  constructor
  · rintro n hn q hq i hi ⟨p, hp, hip⟩
    exact hapart p hp q (List.mem_append_left _ (List.mem_flatMap.2 ⟨n, hn, hq⟩)) i hip hi
  · intro n hn
    refine ⟨?_, fun _ _ => id, fun _ _ => id⟩
    rintro q hq i hi ⟨p, hp, hip⟩
    refine hapart p hp q (List.mem_append_right _ (List.mem_flatMap.2 ⟨_, ?_, hq⟩)) i hip hi
    exact List.mem_map_of_mem hn

/-- No operator of a slot writes what is given to it. -/
theorem Wired.given_beyond (h : g.Wired) (hs : s ∈ g.slots) :
    ∀ op ∈ s.nodes, Region.Beyond ⟨s.given, fun _ => False, fun _ => False⟩ op := by
  intro op ho
  refine ⟨fun q hq i hi hgiven => ?_, fun _ _ => id, fun _ _ => id⟩
  rcases hgiven with ⟨p, hp, hip⟩ | ⟨n, hn, p, hp, hip⟩
  · refine h.fixed_apart hs hs p hp q (List.mem_append_right _ ?_) i hip hi
    exact List.mem_flatMap.2 ⟨op, ho, hq⟩
  · have hslot := List.pairwise_append.1 ((List.pairwise_flatMap.1 h.apart).1 s hs)
    refine hslot.2.2 p.data (List.mem_flatMap.2 ⟨n, hn, ?_⟩) q (List.mem_flatMap.2 ⟨op, ho, ?_⟩)
      i hip hi
    · exact List.mem_append_left _ (List.mem_flatMap.2 ⟨p, hp, p.data_mem_spans⟩)
    · exact op.changing_subset_owned hq

/-- What holds of stores when a slot is visited holds of a graph and what a call makes of it. -/
theorem store_onSlot {φ : Graph → Slot → Graph × Slot} (hφ : Confined φ) {R : Region}
    (hq : g.filler.queue = []) {i : Nat} (hR : ∀ t ∈ g.slots[i]?, R.Outside t) :
    g.arena.store.AgreeOn R.slots (g.onSlot i φ).arena.store := by
  cases ht : g.slots[i]? with
  | none =>
    rw [onSlot_of_none ht]
    exact .refl _ _
  | some t =>
    rw [onSlot_of_some ht]
    exact hφ.store g t hq R (hR t ht)

/-- What all slots of a graph stay away from is kept by every call. -/
theorem agree_run {R : Region} (h : g.filler.queue = [])
    (hR : ∀ k : Graph, k.layout = g.layout → ∀ t ∈ k.slots, R.Outside t) (calls : List RunCall) :
    g.arena.store.AgreeOn R.slots (calls.foldl RunCall.apply g).arena.store := by
  let Q (k : Graph) := k.filler.queue = [] ∧ k.layout = g.layout ∧
    g.arena.store.AgreeOn R.slots k.arena.store
  have happly : ∀ (c : RunCall) (k : Graph), Q k → Q (c.apply k) := by
    refine fun c k => apply_induction (Q := Q) (fun {φ} hφ k i hk => ?_) (fun _ _ _ _ => id) c
    obtain ⟨hqueue, hl, hstore⟩ := hk
    refine ⟨queue_onSlot hφ.queue k i hqueue, (layout_onSlot hφ.keeps k i).trans hl, ?_⟩
    exact hstore.trans (store_onSlot hφ hqueue fun t ht => hR k hl t (List.mem_of_getElem? ht))
  have hrun : ∀ (calls : List RunCall) (k : Graph), Q k → Q (calls.foldl RunCall.apply k) := by
    intro calls
    induction calls with
    | nil => exact fun _ hk => hk
    | cons c calls ih => exact fun k hk => ih _ (happly c k hk)
  exact (hrun calls g ⟨h, rfl, .refl _ _⟩).2.2

/-- Constants hold what they held, whatever calls are made. -/
theorem fixed_run (h : g.Idling) (hs : s ∈ g.slots) (calls : List RunCall) :
    g.arena.store.AgreeOn (fun i => ∃ p ∈ s.fixed, i ∈ p)
      (calls.foldl RunCall.apply g).arena.store := by
  refine agree_run (R := ⟨fun i => ∃ p ∈ s.fixed, i ∈ p, fun _ => False, fun _ => False⟩) h.queue
    (fun k hl t ht => ?_) calls
  have hslots : k.slots.map Slot.resting = g.slots.map Slot.resting := congrArg Layout.slots hl
  obtain ⟨s', hs', hrest⟩ := List.mem_map.1 (hslots ▸ List.mem_map_of_mem hs :
    s.resting ∈ k.slots.map Slot.resting)
  have hfixed : s'.fixed = s.fixed := by rw [← Slot.fixed_resting, hrest, Slot.fixed_resting]
  rw [← hfixed]
  exact (h.contained.of_layout hl).wired.fixed_outside hs' ht

end Graph

end Readout
