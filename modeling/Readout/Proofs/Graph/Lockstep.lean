import Readout.Proofs.Graph.Renewal

/-!
# Runs in lockstep

Calls of a run are made for two graphs of one analysis that differ in what an earlier run may have
left in the store: outputs of sources whose events have not begun in the run, and of operators whose
events have not ended. Words that are handed to an event and ends of an event find nothing of this
once the event has begun, and every call settles more of the store than was settled before.
-/
namespace Readout

namespace Operator

variable {op : Operator} {f f' : Frame} {P : Nat → Prop}

theorem bins_of_not_sink (h : op.kind.isSink = false) : op.kind.bins = [] := by
  cases hk : op.kind with
  | histograms | planeHistogram => simp [hk, Kind.isSink] at h
  | _ => rfl

theorem step_settles (hs : op.Shaped) (he : ∀ p ∈ op.inputs ++ op.outputs, p.Even)
    (hx : op.kind.isExpression = false) (hfit : ∀ p ∈ op.outputs, p.data.stop ≤ f.store.slots)
    (hreads : ∀ i, op.reads.slots i → P i) (hq : f.filler = f'.filler)
    (h : f.AgreeOn ⟨P, fun _ => True, fun _ => True⟩ f') :
    (op.step f).1 = (op.step f').1 ∧
      (op.step f).2.AgreeOn
        ⟨fun i => P i ∨ ∃ p ∈ op.outputs, i ∈ p.data, fun _ => True, fun _ => True⟩
        (op.step f').2 ∧
        (op.step f).2.filler = (op.step f').2.filler := by
  have hsame : op.Indistinct f f' :=
    ⟨h.store.mono hreads, fun bit _ => h.bits bit trivial,
      fun _ _ => h.volume.mono fun _ _ => trivial⟩
  obtain ⟨hop, hframe, hfiller⟩ := step_agree hsame hq h
  refine ⟨hop, ⟨?_, hframe.length_eq, hframe.bits, hframe.volume⟩, hfiller⟩
  -- a sink has no outputs, and no other kind has bins that a flush would change later
  cases hsink : op.kind.isSink with
  | true =>
    refine hframe.store.mono fun i hi => hi.resolve_right ?_
    simp [outputs_of_sink hsink hs]
  | false =>
    exact step_renews hsame (bins_of_not_sink hsink) hs he (Kind.revised_of_not_expression hx _)
      hfit h.store

end Operator

namespace Slot

/-- What a slot keeps in the store that does not depend on earlier runs: constants and what the run
has cleared, the outputs of its sources if the event has begun in the run, and those of its
operators if the event has ended. -/
def settled (s : Slot) (begun ended : Prop) (i : Nat) : Prop :=
  (∃ p ∈ s.fixed ++ s.cleared, i ∈ p) ∨
    (begun ∧ ∃ n ∈ s.sources, ∃ p ∈ n.node.outputs, i ∈ p.data) ∨ (ended ∧ filled s.operators i)

theorem filled_resting (s : Slot) : filled s.resting.operators = filled s.operators := by
  funext i
  simp [filled, resting, Numbered.map, RankedOperator.resting, Operator.resting]

theorem settled_resting (s : Slot) : s.resting.settled = s.settled := by
  funext begun ended i
  simp only [settled, fixed_resting, cleared_resting, filled_resting]
  simp only [resting, List.mem_map, exists_exists_and_eq_and]
  rfl

theorem settled_memory (s : Slot) {op : Operator} (ho : op ∈ s.nodes) {p : Span}
    (hp : p ∈ op.kind.memory) {i : Nat} (hi : i ∈ p) {begun ended : Prop} :
    s.settled begun ended i := by
  refine Or.inl ⟨p, ?_, hi⟩
  rw [Kind.memory_eq] at hp
  rcases List.mem_append.1 hp with hp | hp
  · refine List.mem_append_left _ (List.mem_append_right _ (List.mem_flatMap.2 ⟨op, ho, ?_⟩))
    exact List.mem_append_right _ hp
  · refine List.mem_append_right _ (List.mem_append_right _ (List.mem_flatMap.2 ⟨op, ho, ?_⟩))
    exact List.mem_append_left _ hp

end Slot

namespace Graph

/-- The slots of the store that hold the same after calls of a run, whatever went before the run. -/
def Layout.settled (l : Layout) (calls : List Call) (i : Nat) : Prop :=
  ∃ (e : Nat) (s : Slot), l.slots[e]? = some s ∧
    s.settled (Call.beginEvent e ∈ calls) (Call.endEvent e ∈ calls) i

/-- Two graphs of one analysis that calls of a run have made the same: the counters of the graph,
the operators with all that they keep, the condition bits, what is settled in the store, and all
files. -/
structure SameRun (calls : List Call) (g g' : Graph) : Prop where
  layout : g.layout = g'.layout
  running : g.running = g'.running
  events : g.events = g'.events
  ticks : g.ticks = g'.ticks
  operators : g.slots.map Slot.operators = g'.slots.map Slot.operators
  bits : g.slots.map Slot.bits = g'.slots.map Slot.bits
  store : g.arena.store.AgreeOn (g.layout.settled calls) g'.arena.store
  volume : g.volume.AgreeOn (fun _ => True) g'.volume

/-- On frames that agree on what is given to a slot and on what its operators remember, its steps
are the same and make the outputs of all operators the same. -/
theorem Contained.steps_settle {g : Graph} (h : g.Contained) {s : Slot} (hs : s ∈ g.slots)
    (hx : ∀ op ∈ s.nodes, op.kind.isExpression = false) {P : Nat → Prop}
    (hgiven : ∀ i, s.given i → P i) (hstate : ∀ op ∈ s.nodes, ∀ p ∈ op.kind.state, ∀ i ∈ p, P i)
    (f f' : Frame) (hroom : f.store.slots = g.arena.store.slots) (hq : f.filler = f'.filler)
    (hf : f.AgreeOn ⟨P, fun _ => True, fun _ => True⟩ f') :
    let x := Slot.mapOperators Operator.step s.operators f
    let x' := Slot.mapOperators Operator.step s.operators f'
    x.1 = x'.1 ∧ x.2.AgreeOn
      ⟨fun i => P i ∨ Slot.filled s.operators i, fun _ => True, fun _ => True⟩ x'.2 ∧
        x.2.filler = x'.2.filler := by
  intro x x'
  have hcontained := h.slots s hs
  -- the outputs of the operators become the same one after the other, in running order
  let Q (before : List (Numbered RankedOperator)) (k k' : Frame) : Prop :=
    k.store.slots = g.arena.store.slots ∧ k.filler = k'.filler ∧
      k.AgreeOn ⟨fun i => P i ∨ Slot.filled before i, fun _ => True, fun _ => True⟩ k'
  have hstart : Q [] f f' :=
    ⟨hroom, hq, hf.store.mono fun i hi => hi.resolve_right (by simp [Slot.filled]), hf.length_eq,
      hf.bits, hf.volume⟩
  have hstep : ∀ (before : List (Numbered RankedOperator)) (n : Numbered RankedOperator)
      (behind : List (Numbered RankedOperator)) (n' : Numbered RankedOperator) (k k' : Frame),
      s.operators = before ++ n :: behind → n = n' → Q before k k' →
      Numbered.mk n.index { n.node with operator := (n.node.operator.step k).1 } =
          Numbered.mk n'.index { n'.node with operator := (n'.node.operator.step k').1 } ∧
        Q (before ++ [n]) (n.node.operator.step k).2 (n'.node.operator.step k').2 := by
    rintro before n behind n' k k' hsplit rfl ⟨hroom, hq, hk⟩
    have hmem : n.node.operator ∈ s.nodes := by
      rw [Slot.nodes, hsplit]
      exact List.mem_map_of_mem (List.mem_append_right _ List.mem_cons_self)
    have hreads : ∀ i, n.node.operator.reads.slots i → P i ∨ Slot.filled before i := by
      intro i hi
      rcases hcontained.reads_given hsplit
        (Kind.revised_of_not_expression (hx _ hmem) _) hi with hi | hi | ⟨p, hp, hi⟩
      · exact Or.inl (hgiven i hi)
      · exact Or.inr hi
      · exact Or.inl (hstate _ hmem p hp i hi)
    have hfit : ∀ p ∈ n.node.operator.outputs, p.data.stop ≤ k.store.slots := fun p hp =>
      hroom ▸ h.wired.pipe_fits hs (Slot.operator_pipe hmem hp)
    obtain ⟨hop, hnext, hfiller⟩ := Operator.step_settles (hcontained.order.laid.shaped _ hmem)
      (hcontained.inputs_even hmem) (hx _ hmem) hfit hreads hq hk
    have hslots := (Operator.step_frame (Region.none_beyond n.node.operator) k).store.slots_eq
    refine ⟨by rw [hop], hslots.symm.trans hroom, hfiller, ?_, hnext.length_eq, hnext.bits,
      hnext.volume⟩
    refine hnext.store.mono fun i hi => ?_
    simpa [Slot.filled, or_and_right, exists_or, or_assoc] using hi
  obtain ⟨hops, -, hfiller, hend⟩ := Slot.mapOperators_paired s.operators (· = ·) Q hstep rfl
    (List.forall₂_same.2 fun _ _ => rfl) hstart
  exact ⟨List.forall₂_eq_eq_eq ▸ hops, hend, hfiller⟩

variable {l : Layout} {g g' : Graph} {s s' : Slot} {calls calls' : List Call} {i e : Nat}
  {φ : Graph → Slot → Graph × Slot}

theorem Layout.settled_mono (h : l.settled calls' i)
    (hbegun : ∀ e s, l.slots[e]? = some s → Call.beginEvent e ∈ calls' → Call.beginEvent e ∈ calls)
    (hended : ∀ e s, l.slots[e]? = some s → Call.endEvent e ∈ calls' → Call.endEvent e ∈ calls) :
    l.settled calls i := by
  obtain ⟨e, s, hs, hi⟩ := h
  refine ⟨e, s, hs, ?_⟩
  rcases hi with hi | ⟨hb, hi⟩ | ⟨he, hi⟩
  · exact Or.inl hi
  · exact Or.inr (Or.inl ⟨hbegun e s hs hb, hi⟩)
  · exact Or.inr (Or.inr ⟨hended e s hs he, hi⟩)

theorem settled_of_slot (hs : g.slots[e]? = some s)
    (hi : s.settled (Call.beginEvent e ∈ calls) (Call.endEvent e ∈ calls) i) :
    g.layout.settled calls i := by
  refine ⟨e, s.resting, ?_, s.settled_resting ▸ hi⟩
  rw [getElem?_layout rfl, hs, Option.map_some]

theorem settled_beginEvent (hs : g.slots[e]? = some s)
    (h : g.layout.settled (calls ++ [.beginEvent e]) i) :
    g.layout.settled calls i ∨ ∃ n ∈ s.sources, ∃ p ∈ n.node.outputs, i ∈ p.data := by
  obtain ⟨e', t, ht, hi⟩ := h
  rcases hi with hi | ⟨hb, hi⟩ | ⟨he, hi⟩
  · exact Or.inl ⟨e', t, ht, Or.inl hi⟩
  · rcases List.mem_append.1 hb with hb | hb
    · exact Or.inl ⟨e', t, ht, Or.inr (Or.inl ⟨hb, hi⟩)⟩
    · obtain rfl : e' = e := Call.beginEvent.inj (List.mem_singleton.1 hb)
      rw [getElem?_layout rfl, hs, Option.map_some, Option.some.injEq] at ht
      subst ht
      simp only [Slot.resting, List.mem_map, exists_exists_and_eq_and] at hi
      exact Or.inr hi
  · exact Or.inl ⟨e', t, ht, Or.inr (Or.inr ⟨by simpa using he, hi⟩)⟩

theorem settled_endEvent (hs : g.slots[e]? = some s)
    (h : g.layout.settled (calls ++ [.endEvent e]) i) :
    g.layout.settled calls i ∨ Slot.filled s.operators i := by
  obtain ⟨e', t, ht, hi⟩ := h
  rcases hi with hi | ⟨hb, hi⟩ | ⟨he, hi⟩
  · exact Or.inl ⟨e', t, ht, Or.inl hi⟩
  · exact Or.inl ⟨e', t, ht, Or.inr (Or.inl ⟨by simpa using hb, hi⟩)⟩
  · rcases List.mem_append.1 he with he | he
    · exact Or.inl ⟨e', t, ht, Or.inr (Or.inr ⟨he, hi⟩)⟩
    · obtain rfl : e' = e := Call.endEvent.inj (List.mem_singleton.1 he)
      rw [getElem?_layout rfl, hs, Option.map_some, Option.some.injEq] at ht
      subst ht
      exact Or.inr (s.filled_resting ▸ hi)

/-- Slots with the same operators and condition bits, and, once their event has begun, with sources
that are the same up to what they have let go. -/
structure Matches (begun : Prop) (s s' : Slot) : Prop where
  operators : s.operators = s'.operators
  bits : s.bits = s'.bits
  sources : begun → s.current.sources = s'.current.sources

/-- Two graphs of one analysis between two calls of a run that were the same for both. -/
structure Lockstep (calls : List Call) (g g' : Graph) : Prop extends SameRun calls g g' where
  left : g.Idling
  right : g'.Idling
  sources : ∀ e, Call.beginEvent e ∈ calls →
    g.slots[e]?.map (fun s => s.current.sources) = g'.slots[e]?.map fun s => s.current.sources

/-- What visits of two slots have in common when the same call was made for both. -/
structure Visited (P : Nat → Prop) (begun : Prop) (x x' : Graph × Slot) : Prop where
  running : x.1.running = x'.1.running
  events : x.1.events = x'.1.events
  ticks : x.1.ticks = x'.1.ticks
  slot : Matches begun x.2 x'.2
  store : x.1.arena.store.AgreeOn P x'.1.arena.store
  volume : x.1.volume.AgreeOn (fun _ => True) x'.1.volume

namespace Lockstep

theorem exists_slot (h : Lockstep calls g g') (hs : g.slots[e]? = some s) :
    ∃ s', g'.slots[e]? = some s' ∧ s.resting = s'.resting ∧
      Matches (Call.beginEvent e ∈ calls) s s' := by
  have hrest := getElem?_layout h.layout e
  rw [getElem?_layout rfl, hs, Option.map_some] at hrest
  obtain ⟨s', hs', hr⟩ := Option.map_eq_some_iff.1 hrest
  have hoperators := congrArg (fun xs => xs[e]?) h.operators
  have hbits := congrArg (fun xs => xs[e]?) h.bits
  have hsources := h.sources e
  simp only [List.getElem?_map, hs, hs', Option.map_some, Option.some.injEq]
    at hoperators hbits hsources
  exact ⟨s', hs', hr.symm, hoperators, hbits, hsources⟩

theorem of_calls (h : Lockstep calls g g')
    (hcalls : ∀ c ∈ calls', c ∈ calls ∨ ∀ e ∈ c.event?, g.slots[e]? = none) :
    Lockstep calls' g g' := by
  have hgone : ∀ {c : Call} {e : Nat} {t : Slot}, c.event? = some e →
      g.layout.slots[e]? = some t → c ∈ calls' → c ∈ calls := by
    intro c e t he ht hc
    refine (hcalls c hc).resolve_right fun hnone => ?_
    rw [getElem?_layout rfl, hnone e he] at ht
    cases ht
  have hsettled : ∀ i, g.layout.settled calls' i → g.layout.settled calls i := fun i hi =>
    Layout.settled_mono hi (fun e t ht => hgone rfl ht) fun e t ht => hgone rfl ht
  refine ⟨{ h.toSameRun with store := h.store.mono hsettled }, h.left, h.right, fun e hb => ?_⟩
  cases hs : g.slots[e]? with
  | none => rw [slot_eq_none_of_layout h.layout hs]
  | some s =>
    have hslot := getElem?_layout (g := g) rfl e
    rw [hs, Option.map_some] at hslot
    rw [← hs]
    exact h.sources e (hgone rfl hslot hb)

theorem onSlot (h : Lockstep calls g g') (hφ : Confined φ)
    (hcalls : ∀ c ∈ calls', c ∈ calls ∨ c.event? = some e)
    (hown : ∀ s s', g.slots[e]? = some s → s.resting = s'.resting →
      Matches (Call.beginEvent e ∈ calls) s s' →
        Visited (g.layout.settled calls') (Call.beginEvent e ∈ calls') (φ g s) (φ g' s')) :
    Lockstep calls' (g.onSlot e φ) (g'.onSlot e φ) := by
  cases hs : g.slots[e]? with
  | none =>
    rw [onSlot_of_none hs, onSlot_of_none (slot_eq_none_of_layout h.layout hs)]
    refine h.of_calls fun c hc => (hcalls c hc).imp id fun he e' he' => ?_
    rw [he] at he'
    exact Option.some.inj he' ▸ hs
  | some s =>
    obtain ⟨s', hs', hrest, hmatch⟩ := h.exists_slot hs
    have hv := hown s s' hs hrest hmatch
    have hset : ∀ k t, (φ k t).1.slots.set e (φ k t).2 = k.slots.set e (φ k t).2 := fun k t => by
      rw [hφ.keeps.slots]
    have hsame : SameRun calls' (g.onSlot e φ) (g'.onSlot e φ) := by
      have hlayout : (g.onSlot e φ).layout = g.layout := layout_onSlot hφ.keeps g e
      constructor
      case layout => rw [hlayout, layout_onSlot hφ.keeps, h.layout]
      all_goals rw [onSlot_of_some hs, onSlot_of_some hs']
      case running => exact hv.running
      case events => exact hv.events
      case ticks => exact hv.ticks
      case operators => simp only [hset, List.map_set, h.operators, hv.slot.operators]
      case bits => simp only [hset, List.map_set, h.bits, hv.slot.bits]
      case store =>
        rw [onSlot_of_some hs] at hlayout
        rw [hlayout]
        exact hv.store
      case volume => exact hv.volume
    refine ⟨hsame, h.left.onSlot hφ e, h.right.onSlot hφ e, fun j hb => ?_⟩
    rw [slots_onSlot hφ.keeps, slots_onSlot hφ.keeps]
    split
    · next hj =>
      subst hj
      rw [hs, hs']
      exact congrArg some (hv.slot.sources hb)
    · next hj =>
      exact h.sources j ((hcalls _ hb).resolve_right fun he => hj (Option.some.inj he).symm)

theorem recount (h : Lockstep calls g g') {b b' : Bool} {m m' n n' : Nat} (hb : b = b')
    (hm : m = m') (hn : n = n') :
    Lockstep calls { g with running := b, events := m, ticks := n }
      { g' with running := b', events := m', ticks := n' } :=
  ⟨⟨h.layout, hb, hm, hn, h.operators, h.bits, h.store, h.volume⟩, h.left.recount _ _ _,
    h.right.recount _ _ _, h.sources⟩

theorem onSlots (h : Lockstep calls g g') (hφ : Confined φ)
    (hown : ∀ k k' e s s', Lockstep calls k k' → k.slots[e]? = some s →
      Matches (Call.beginEvent e ∈ calls) s s' →
        Visited (k.layout.settled calls) (Call.beginEvent e ∈ calls) (φ k s) (φ k' s')) :
    Lockstep calls (g.onSlots φ) (g'.onSlots φ) :=
  onSlots_related (Q := fun _ => Lockstep calls)
    (fun i k k' hk => hk.onSlot hφ (fun _ => Or.inl) fun s s' hs _ => hown k k' i s s' hk hs)
    (h.right.contained.count.trans h.left.contained.count.symm) h

theorem frame_agree (h : Lockstep calls g g') (hbits : s.bits = s'.bits) :
    (g.frame s).AgreeOn ⟨g.layout.settled calls, fun _ => True, fun _ => True⟩ (g'.frame s') :=
  ⟨h.store, congrArg ConditionBits.length hbits, fun _ _ => congrArg (ConditionBits.test · _) hbits,
    h.volume⟩

theorem tick (h : Lockstep calls g g') : Lockstep (calls ++ [.tick]) g.tick g'.tick := by
  have hcalls : Lockstep (calls ++ [.tick]) g g' := h.of_calls fun c hc => by
    rcases List.mem_append.1 hc with hc | hc
    · exact Or.inl hc
    · obtain rfl := List.mem_singleton.1 hc
      exact Or.inr fun e he => by cases he
  have hround := hcalls.onSlots confined_tickSlot fun k k' e s s' hk hs hmatch => by
    -- samplers look at counters of their own operator, and these were cleared by the run
    have hmemory : ∀ n ∈ s.operators, ∀ p ∈ n.node.operator.kind.memory, ∀ i ∈ p,
        k.layout.settled (calls ++ [.tick]) i := fun n hn p hp i hi =>
      settled_of_slot hs (s.settled_memory (List.mem_map_of_mem hn) hp hi)
    have hticks := (Slot.mapOperators_related s.operators (φ := fun op f => (op.tick f.store, f))
      (Q := fun f f' => f.AgreeOn ⟨k.layout.settled (calls ++ [.tick]), fun _ => True,
        fun _ => True⟩ f') (fun n hn f f' hf =>
          ⟨Operator.tick_eq fun p hp => hf.store.values_eq (hmemory n hn p hp), hf⟩)
      (hk.frame_agree hmatch.bits)).1
    refine ⟨hk.running, hk.events, hk.ticks, ⟨?_, hmatch.bits, hmatch.sources⟩, hk.store,
      hk.volume⟩
    rw [tickSlot, tickSlot, ← hmatch.operators]
    exact hticks
  exact hround.recount hround.running hround.events (congrArg (· + 1) h.ticks)

theorem endRun (h : Lockstep calls g g') : Lockstep calls g.endRun g'.endRun := by
  have hround := h.onSlots confined_endRunSlot fun k k' e s s' hk hs hmatch => by
    obtain ⟨hends, hframe⟩ := Slot.mapOperators_related s.operators (φ := Operator.endRun)
      (fun _ _ _ _ => Operator.endRun_agree) (hk.frame_agree hmatch.bits)
    refine ⟨hk.running, hk.events, hk.ticks, ⟨?_, hmatch.bits, hmatch.sources⟩, ?_, ?_⟩ <;>
      rw [endRunSlot, endRunSlot, ← hmatch.operators]
    · exact hends
    · exact hframe.store
    · exact hframe.volume
  exact hround.recount rfl hround.events hround.ticks

theorem mem_or_names {c : Call} (he : c.event? = some e) :
    ∀ d ∈ calls ++ [c], d ∈ calls ∨ d.event? = some e := by
  intro d hd
  rcases List.mem_append.1 hd with hd | hd
  · exact Or.inl hd
  · exact Or.inr (List.mem_singleton.1 hd ▸ he)

theorem beginEvent (h : Lockstep calls g g') (e : Nat) :
    Lockstep (calls ++ [.beginEvent e]) (g.beginEvent e) (g'.beginEvent e) := by
  refine h.onSlot confined_beginEventSlot (mem_or_names rfl) fun s s' hs hrest hmatch => ?_
  have hfit : ∀ n ∈ s.sources, ∀ p ∈ n.node.outputs, p.data.stop ≤ g.arena.store.slots :=
    fun n hn p hp =>
      h.left.contained.wired.pipe_fits (List.mem_of_getElem? hs) (Slot.source_pipe hn hp)
  obtain ⟨hcurrent, hstore⟩ :=
    Slot.mapSources_renews (congrArg Slot.sources hrest) hfit h.store
  exact ⟨h.running, h.events, h.ticks,
    ⟨hmatch.operators, congrArg ConditionBits.clear hmatch.bits, fun _ => hcurrent⟩,
    hstore.mono fun i hi => settled_beginEvent hs hi, h.volume⟩

theorem feed (h : Lockstep calls g g') {e : Nat}
    (hplain : ∀ s ∈ g.slots[e]?, ∀ n ∈ s.sources, n.node.plain = true)
    (hbegun : Call.beginEvent e ∈ calls) (moduleIndex : Nat) (words : List UInt32) :
    Lockstep (calls ++ [.feed e moduleIndex words]) (g.feed e moduleIndex words)
      (g'.feed e moduleIndex words) := by
  refine h.onSlot (confined_feedSlot moduleIndex words) (mem_or_names rfl)
    fun s s' hs _ hmatch => ?_
  -- a hit is counted if its place is still free, and the places lie in outputs of the sources
  have hseen : ∀ n ∈ s.sources, Source.SeenIn
      { n.node with decoder := (n.node.decoder.decode words).2.1 } (g.layout.settled calls)
        (n.node.decoder.decode words).1 := fun n hn =>
    ((h.left.contained.slots s (List.mem_of_getElem? hs)).sources n hn).seenIn words
      fun p hp i hi => settled_of_slot hs (Or.inr (Or.inl ⟨hbegun, n, hn, p, hp, hi⟩))
  obtain ⟨hcurrent, hstore⟩ := Slot.feedSources_current moduleIndex words (hmatch.sources hbegun)
    (hplain s hs) hseen h.store
  exact ⟨h.running, h.events, h.ticks, ⟨hmatch.operators, hmatch.bits, fun _ => hcurrent⟩,
    hstore.mono fun i hi => Layout.settled_mono hi (by simp) (by simp), h.volume⟩

theorem endEvent (h : Lockstep calls g g') {e : Nat}
    (hx : ∀ s ∈ g.slots[e]?, ∀ op ∈ s.nodes, op.kind.isExpression = false)
    (hbegun : Call.beginEvent e ∈ calls) :
    Lockstep (calls ++ [.endEvent e]) (g.endEvent e) (g'.endEvent e) := by
  refine h.onSlot confined_endEventSlot (mem_or_names rfl) fun s s' hs _ hmatch => ?_
  have hgiven : ∀ i, s.given i → g.layout.settled calls i := by
    rintro i (⟨p, hp, hi⟩ | ⟨n, hn, p, hp, hi⟩)
    · exact settled_of_slot hs (Or.inl ⟨p, List.mem_append_left _ hp, hi⟩)
    · exact settled_of_slot hs (Or.inr (Or.inl ⟨hbegun, n, hn, p, hp, hi⟩))
  have hstate : ∀ op ∈ s.nodes, ∀ p ∈ op.kind.state, ∀ i ∈ p, g.layout.settled calls i :=
    fun op ho p hp i hi => settled_of_slot hs
      (s.settled_memory ho (op.kind.memory_eq ▸ List.mem_append_right _ hp) hi)
  obtain ⟨hsteps, hframe, hfiller⟩ := h.left.contained.steps_settle (List.mem_of_getElem? hs)
    (hx s hs) hgiven hstate (g.frame s) (g'.frame s') rfl
    (filler_eq_of_layout h.layout h.left.queue h.right.queue) (h.frame_agree hmatch.bits)
  have hbits := ConditionBits.eq_of_test hframe.length_eq fun i => hframe.bits i trivial
  have hflush := Filler.flush_agree
    (Slot.mapOperators Operator.step s.operators (g.frame s)).2.filler hframe.store
  have hevents : g.events + 1 = g'.events + 1 := congrArg (· + 1) h.events
  refine ⟨h.running, hevents, h.ticks, ⟨?_, ?_, fun _ => hmatch.sources hbegun⟩,
    Store.AgreeOn.mono ?_ fun i hi => settled_endEvent hs hi, ?_⟩ <;>
    simp only [endEventSlot, ← hmatch.operators]
  · exact hsteps
  · exact hbits
  · simp only [withFrame]
    rw [← hfiller]
    exact hflush
  · exact hframe.volume

end Lockstep

end Graph

end Readout
