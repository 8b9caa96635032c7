import Readout.Proofs.Graph.Events

/-!
# Events are isolated

What an event is computed from is what its sources keep, its condition bits and the constants of
its slot. Calls that do not bear on an event leave this as it is, and the others change it alike
wherever it is the same; the beginning of an event makes it the same after any two histories. So
what has gone before an event makes no difference for it.
-/
namespace Readout

namespace RunCall

/-- The call hands words to an event or ends it. The beginning of a run clears the condition bits
that an end of the event has left. -/
def bears (event : Nat) (ended : Bool) : RunCall → Bool
  | beginRun => ended
  | during (.feed e _ _) | during (.endEvent e) => e = event
  | _ => false

def feeds (event : Nat) : RunCall → Bool
  | during (.feed e _ _) => e = event
  | _ => false

def ends (event : Nat) : RunCall → Bool
  | during (.endEvent e) => e = event
  | _ => false

/-- The calls that bear on an event that has begun, and maybe ended, in front of them. -/
def bearing (event : Nat) : Bool → List RunCall → List RunCall
  | _, [] => []
  | ended, c :: rest =>
    if c.bears event ended then c :: bearing event (ended || c.ends event) rest
    else bearing event ended rest

theorem bears_mono {event : Nat} {ended : Bool} {c : RunCall} (h : c.bears event ended = true) :
    c.bears event true = true := by
  cases c with
  | beginRun => rfl
  | endRun => exact h
  | during c => cases c <;> exact h

theorem ends_iff {event : Nat} {c : RunCall} :
    c.ends event = true ↔ c = .during (.endEvent event) := by
  cases c with
  | during c =>
    cases c with
    | endEvent e => simp [ends]
    | _ => simp [ends]
  | _ => simp [ends]

end RunCall

theorem Numbered.inj_of_map {α β : Type} {f : α → β} {n n' : Numbered α} (h : n.map f = n'.map f) :
    n.index = n'.index ∧ f n.node = f n'.node := Numbered.mk.inj h

namespace Slot

/-- A slot without what its sources have let go and what its sinks keep. -/
def current (s : Slot) : Slot where
  sources := s.sources.map (Numbered.map Source.current)
  operators := s.resting.operators
  bits := s.bits

variable {s s' : Slot} {P : Nat → Prop}

theorem parts_of_current (h : s.current = s'.current) :
    s.sources.map (Numbered.map Source.current) = s'.sources.map (Numbered.map Source.current) ∧
      s.resting.operators = s'.resting.operators ∧ s.bits = s'.bits := Slot.mk.inj h

theorem resting_of_current (h : s.current = s'.current) : s.resting = s'.resting := by
  have hmap : ∀ s : Slot, s.current.sources.map (Numbered.map Source.resting) =
      s.sources.map (Numbered.map Source.resting) := fun s => by
    simp only [current, List.map_map]
    exact List.map_congr_left fun n _ => congrArg (Numbered.mk n.index) n.node.resting_current
  have hsources : s.sources.map (Numbered.map Source.resting) =
      s'.sources.map (Numbered.map Source.resting) := by
    rw [← hmap, h, hmap]
  obtain ⟨-, hoperators, hbits⟩ := parts_of_current h
  have hslot := congr (congr (congrArg Slot.mk hsources) hoperators)
    (congrArg ConditionBits.clear hbits)
  exact hslot

/-- Sources without dither, and operators that do not make outputs of earlier events. -/
structure Memoryless (s : Slot) : Prop where
  sources : ∀ n ∈ s.sources, n.node.plain = true
  operators : ∀ op ∈ s.nodes, op.kind.stateless = true

instance (s : Slot) : Decidable s.Memoryless :=
  decidable_of_iff ((∀ n ∈ s.sources, n.node.plain = true) ∧
    ∀ op ∈ s.nodes, op.kind.stateless = true)
    ⟨fun h => ⟨h.1, h.2⟩, fun h => ⟨h.sources, h.operators⟩⟩

theorem memoryless_resting (s : Slot) : s.resting.Memoryless ↔ s.Memoryless := by
  have hsources : (∀ n ∈ s.resting.sources, n.node.plain = true) ↔
      ∀ n ∈ s.sources, n.node.plain = true := List.forall_mem_map
  have hoperators : (∀ op ∈ s.resting.nodes, op.kind.stateless = true) ↔
      ∀ op ∈ s.nodes, op.kind.stateless = true := by
    rw [nodes_resting, List.forall_mem_map]
    simp only [Operator.kind_resting, Kind.stateless_resting]
  exact ⟨fun h => ⟨hsources.1 h.sources, hoperators.1 h.operators⟩,
    fun h => ⟨hsources.2 h.sources, hoperators.2 h.operators⟩⟩

theorem Memoryless.of_resting (h : s.Memoryless) (hr : s'.resting = s.resting) :
    s'.Memoryless := by
  rwa [← memoryless_resting, hr, memoryless_resting]

theorem mapSources_renews {ns ns' : List (Numbered Source)}
    (hr : ns.map (Numbered.map Source.resting) = ns'.map (Numbered.map Source.resting))
    {st st' : Store} (hfit : ∀ n ∈ ns, ∀ p ∈ n.node.outputs, p.data.stop ≤ st.slots)
    (h : st.AgreeOn P st') :
    (mapSources Source.beginEvent ns st).1.map (Numbered.map Source.current) =
        (mapSources Source.beginEvent ns' st').1.map (Numbered.map Source.current) ∧
      (mapSources Source.beginEvent ns st).2.AgreeOn
        (fun i => P i ∨ ∃ n ∈ ns, ∃ p ∈ n.node.outputs, i ∈ p.data)
        (mapSources Source.beginEvent ns' st').2 := by
  induction ns generalizing ns' st st' P with
  | nil =>
    obtain rfl := List.map_eq_nil_iff.1 hr.symm
    exact ⟨rfl, h.mono fun i hi => hi.resolve_right (by simp)⟩
  | cons n ns ih =>
    obtain ⟨n', ns', rfl⟩ : ∃ n' rest, ns' = n' :: rest :=
      List.exists_cons_of_ne_nil (by rintro rfl; cases hr)
    obtain ⟨hn, hr⟩ := List.cons.inj hr
    obtain ⟨hfitn, hfit⟩ := List.forall_mem_cons.1 hfit
    obtain ⟨hindex, hnode⟩ := Numbered.inj_of_map hn
    have houtputs := congrArg Source.outputs hnode
    have hnext := Source.beginEvent_renews (show n.node.outputs = n'.node.outputs from houtputs)
      hfitn h
    obtain ⟨hsources, hstore⟩ := ih hr (fun m hm p hp => by
      rw [Source.slots_beginEvent]
      exact hfit m hm p hp) hnext
    refine ⟨?_, hstore.mono fun i hi => ?_⟩
    · simp only [mapSources, List.map_cons, hsources]
      simp only [Numbered.map, Source.current_beginEvent hnode st st', hindex]
    · simpa [or_assoc] using hi

theorem feedSources_current (moduleIndex : Nat) (words : List UInt32)
    {ns ns' : List (Numbered Source)}
    (hc : ns.map (Numbered.map Source.current) = ns'.map (Numbered.map Source.current))
    (hplain : ∀ n ∈ ns, n.node.plain = true)
    (hP : ∀ n ∈ ns, Source.SeenIn
      { n.node with decoder := (n.node.decoder.decode words).2.1 } P (n.node.decoder.decode words).1)
    {st st' : Store} (h : st.AgreeOn P st') :
    (feedSources moduleIndex words ns st).1.map (Numbered.map Source.current) =
        (feedSources moduleIndex words ns' st').1.map (Numbered.map Source.current) ∧
      (feedSources moduleIndex words ns st).2.AgreeOn P
        (feedSources moduleIndex words ns' st').2 := by
  induction ns generalizing ns' st st' with
  | nil =>
    obtain rfl := List.map_eq_nil_iff.1 hc.symm
    exact ⟨rfl, h⟩
  | cons n ns ih =>
    obtain ⟨n', ns', rfl⟩ : ∃ n' rest, ns' = n' :: rest :=
      List.exists_cons_of_ne_nil (by rintro rfl; cases hc)
    have hboth := hc
    obtain ⟨hn, hc⟩ := List.cons.inj hc
    obtain ⟨hplainn, hplain⟩ := List.forall_mem_cons.1 hplain
    obtain ⟨hPn, hP⟩ := List.forall_mem_cons.1 hP
    obtain ⟨hindex, hnode⟩ := Numbered.inj_of_map hn
    have hmodule : n'.node.moduleIndex = n.node.moduleIndex :=
      (congrArg Source.moduleIndex hnode).symm
    rw [feedSources, feedSources, hmodule]
    split
    · obtain ⟨hsource, hnext⟩ := Source.feed_current hnode hplainn h words hPn
      obtain ⟨hsources, hstore⟩ := ih hc hplain hP hnext
      refine ⟨?_, hstore⟩
      simp only [List.map_cons, hsources]
      simp only [Numbered.map, hsource, hindex]
    · split
      · exact ⟨hboth, h⟩
      · obtain ⟨hsources, hstore⟩ := ih hc hplain hP h
        refine ⟨?_, hstore⟩
        simp only [List.map_cons, hsources, hn]

theorem mapSources_beginRun {ns : List (Numbered Source)}
    (hP : ∀ n ∈ ns, ∀ i ∈ n.node.hitCounts, ¬ P i) (st : Store) :
    (mapSources (fun n st => (n, n.beginRun st)) ns st).1 = ns ∧
      st.AgreeOn P (mapSources (fun n st => (n, n.beginRun st)) ns st).2 := by
  induction ns generalizing st with
  | nil => exact ⟨rfl, .refl P st⟩
  | cons n ns ih =>
    obtain ⟨hn, hP⟩ := List.forall_mem_cons.1 hP
    obtain ⟨hsources, hstore⟩ := ih hP (n.node.beginRun st)
    exact ⟨congrArg (n :: ·) hsources, (st.agree_fill _ hn).trans hstore⟩

theorem given_subset_owned {i : Nat} (h : s.given i) : ∃ p ∈ s.owned, i ∈ p := by
  rcases h with ⟨p, hp, hi⟩ | ⟨n, hn, p, hp, hi⟩
  · exact ⟨p, s.owned_parts.symm.subset (List.mem_append_left _ hp), hi⟩
  · refine ⟨p.data, spans_subset_owned ?_ p.data_mem_spans, hi⟩
    exact source_pipe hn hp

theorem given_or_filled {p : Pipe} (hp : p ∈ s.pipes) {t : Span} (ht : t ∈ p.spans) {i : Nat}
    (hi : i ∈ t) : s.given i ∨ filled s.operators i := by
  rcases List.mem_cons.1 ht with rfl | ht
  · rcases List.mem_append.1 hp with hp | hp
    · obtain ⟨n, hn, hp⟩ := List.mem_flatMap.1 hp
      exact Or.inl (Or.inr ⟨n, hn, p, hp, hi⟩)
    · obtain ⟨op, ho, hp⟩ := List.mem_flatMap.1 hp
      obtain ⟨n, hn, rfl⟩ := List.mem_map.1 ho
      exact Or.inr ⟨n, hn, p, hp, hi⟩
  · exact Or.inl (Or.inl ⟨t, limits_subset_fixed hp ht, hi⟩)

end Slot

namespace Graph

variable {g g' k : Graph} {s s' : Slot} {event i : Nat} {φ : Graph → Slot → Graph × Slot}

/-- Counters of hits are not given to operators. -/
theorem Wired.counts_beyond (h : g.Wired) (hs : s ∈ g.slots) :
    ∀ n ∈ s.sources, ∀ i ∈ n.node.hitCounts, ¬ s.given i := by
  rintro n hn i hi (⟨p, hp, hip⟩ | ⟨m, hm, p, hp, hip⟩)
  · refine h.fixed_apart hs hs p hp n.node.hitCounts (List.mem_append_left _ ?_) i hip hi
    refine List.mem_flatMap.2 ⟨n, hn, ?_⟩
    exact List.mem_append_right _ List.mem_cons_self
  · have hparts := List.flatMap_append_perm s.sources (fun n => n.node.outputs.flatMap Pipe.spans)
      fun n => [n.node.hitCounts]
    have hslot := (List.pairwise_flatMap.1 h.apart).1 s hs
    have hsources := (List.pairwise_append.1 hslot).1.perm hparts.symm fun k => k.symm
    refine (List.pairwise_append.1 hsources).2.2 p.data ?_ n.node.hitCounts ?_ i hip hi
    · exact List.mem_flatMap.2 ⟨m, hm, List.mem_flatMap.2 ⟨p, hp, p.data_mem_spans⟩⟩
    · exact List.mem_flatMap.2 ⟨n, hn, List.mem_cons_self⟩

theorem current_of_keeps (hφ : Keeps φ) (hsources : (φ g s).2.sources = s.sources) :
    (φ g s).2.current = { s.current with bits := (φ g s).2.bits } := by
  have hoperators : (φ g s).2.resting.operators = s.resting.operators := by
    rw [hφ.resting]
  rw [Slot.current, hsources, hoperators]
  rfl

theorem endRunSlot_given (h : g.Wired) (hs : s ∈ g.slots) :
    (endRunSlot g s).2.current = s.current ∧
      g.arena.store.AgreeOn s.given (endRunSlot g s).1.arena.store :=
  ⟨current_of_keeps keeps_endRunSlot rfl, (endRunSlot_frame (fun _ hn =>
    h.given_beyond hs _ (List.mem_map_of_mem hn)) g).store⟩

theorem beginRunSlot_given (h : g.Wired) (hs : s ∈ g.slots) :
    (beginRunSlot g s).2.current = { s.current with bits := s.bits.clear } ∧
      g.arena.store.AgreeOn s.given (beginRunSlot g s).1.arena.store := by
  obtain ⟨hsources, hstore⟩ := Slot.mapSources_beginRun (h.counts_beyond hs) g.arena.store
  refine ⟨current_of_keeps keeps_beginRunSlot hsources, hstore.trans ?_⟩
  have hops : ∀ f : Frame,
      f.store.AgreeOn s.given (Slot.mapOperators Operator.beginRun s.operators f).2.store :=
    Slot.mapOperators_store fun n hn f => Operator.beginRun_frame (fun p hp =>
      (h.given_beyond hs _ (List.mem_map_of_mem hn)).slots p (n.node.operator.cleared_subset hp)) f
  exact hops ((g.withStore (Slot.mapSources (fun n st => (n, n.beginRun st))
    s.sources g.arena.store).2).frame s)

theorem feedSlot_current (hs : s.Contained g.arena.store.slots) (hm : s.Memoryless)
    (hc : s.current = s'.current) (h : g.arena.store.AgreeOn s.given g'.arena.store)
    (moduleIndex : Nat) (words : List UInt32) :
    (feedSlot moduleIndex words g s).2.current = (feedSlot moduleIndex words g' s').2.current ∧
      (feedSlot moduleIndex words g s).1.arena.store.AgreeOn s.given
        (feedSlot moduleIndex words g' s').1.arena.store := by
  have hseen : ∀ n ∈ s.sources, Source.SeenIn
      { n.node with decoder := (n.node.decoder.decode words).2.1 } s.given
        (n.node.decoder.decode words).1 := fun n hn =>
    (hs.sources n hn).seenIn words fun p hp i hi => Or.inr ⟨n, hn, p, hp, hi⟩
  obtain ⟨hsources, hoperators, hbits⟩ := Slot.parts_of_current hc
  obtain ⟨hfed, hstore⟩ := Slot.feedSources_current moduleIndex words hsources hm.sources hseen h
  have hslot := congr (congr (congrArg Slot.mk hfed) hoperators) hbits
  exact ⟨hslot, hstore⟩

/-- Two graphs between two calls in which an event is computed from the same. -/
structure SameInput (event : Nat) (g g' : Graph) : Prop where
  left : g.Idling
  right : g'.Idling
  slot_eq : g.slots[event]?.map Slot.current = g'.slots[event]?.map Slot.current
  store : ∀ s ∈ g.slots[event]?, g.arena.store.AgreeOn s.given g'.arena.store

namespace SameInput

theorem refl (h : g.Idling) (event : Nat) : SameInput event g g :=
  ⟨h, h, rfl, fun _ _ => .refl _ _⟩

theorem exists_slot (h : SameInput event g g') (hs : g.slots[event]? = some s) :
    ∃ s', g'.slots[event]? = some s' ∧ s.current = s'.current := by
  have heq := h.slot_eq
  rw [hs, Option.map_some] at heq
  obtain ⟨s', hs', hc⟩ := Option.map_eq_some_iff.1 heq.symm
  exact ⟨s', hs', hc.symm⟩

theorem given_of_current (h : s.current = s'.current) : s.given = s'.given := by
  rw [← Slot.given_resting, Slot.resting_of_current h, Slot.given_resting]

theorem symm (h : SameInput event g g') : SameInput event g' g := by
  refine ⟨h.right, h.left, h.slot_eq.symm, fun s' hs' => ?_⟩
  have hs : g'.slots[event]? = some s' := hs'
  have heq := h.slot_eq
  rw [hs, Option.map_some] at heq
  obtain ⟨s, hs, hc⟩ := Option.map_eq_some_iff.1 heq
  rw [← given_of_current hc]
  exact (h.store s hs).symm

theorem trans (h : SameInput event g g') (h' : SameInput event g' k) : SameInput event g k := by
  refine ⟨h.left, h'.right, h.slot_eq.trans h'.slot_eq, fun s hs => ?_⟩
  obtain ⟨s', hs', hc⟩ := h.exists_slot hs
  have hstore := h'.store s' hs'
  rw [← given_of_current hc] at hstore
  exact (h.store s hs).trans hstore

/-- A visit of a slot is not noticed if it is another slot, or if the visit leaves alone what the
event is computed from. -/
theorem left_onSlot (h : SameInput event g g') (hφ : Confined φ)
    (hown : ∀ s, i = event → g.slots[event]? = some s →
      (φ g s).2.current = s.current ∧ g.arena.store.AgreeOn s.given (φ g s).1.arena.store) :
    SameInput event (g.onSlot i φ) g' := by
  suffices hsame : SameInput event (g.onSlot i φ) g from hsame.trans h
  have hslots := slots_onSlot hφ.keeps g i event
  refine symm ⟨h.left, h.left.onSlot hφ i, ?_, fun s hs => ?_⟩
  · rw [hslots]
    split
    · next hi =>
      rw [Option.map_map]
      cases hs : g.slots[event]? with
      | none => rfl
      | some s => exact congrArg some (hown s hi hs).1.symm
    · rfl
  · by_cases hi : i = event
    · subst hi
      rw [onSlot_of_some hs]
      exact (hown s rfl hs).2
    · have hpart : ∀ t ∈ g.slots[i]?,
          Region.Outside ⟨(s.part fun _ => False).slots, fun _ => False, fun _ => False⟩ t :=
        fun t ht => h.left.contained.wired.outside hs ht (Ne.symm hi) fun _ _ _ => False.elim
      exact (store_onSlot hφ h.left.queue hpart).mono fun _ => Slot.given_subset_owned

/-- A visit of the slot of the event makes the same of both graphs if it treats alike what the event
is computed from. -/
theorem onSlot (h : SameInput event g g') (hφ : Confined φ)
    (hown : ∀ s s', g.slots[event]? = some s → g'.slots[event]? = some s' →
      s.current = s'.current → (φ g s).2.current = (φ g' s').2.current ∧
        (φ g s).1.arena.store.AgreeOn s.given (φ g' s').1.arena.store) :
    SameInput event (g.onSlot event φ) (g'.onSlot event φ) := by
  cases hs : g.slots[event]? with
  | none =>
    have hnone : g'.slots[event]? = none := by
      have heq := h.slot_eq
      rw [hs] at heq
      exact Option.map_eq_none_iff.1 heq.symm
    rwa [onSlot_of_none hs, onSlot_of_none hnone]
  | some s =>
    obtain ⟨s', hs', hc⟩ := h.exists_slot hs
    obtain ⟨hcurrent, hstore⟩ := hown s s' hs hs' hc
    refine ⟨h.left.onSlot hφ event, h.right.onSlot hφ event, ?_, fun t ht => ?_⟩
    · simp only [slots_onSlot hφ.keeps, if_true, hs, hs', Option.map_some, hcurrent]
    · rw [slots_onSlot hφ.keeps, if_pos rfl, hs] at ht
      obtain rfl := Option.some.inj ht
      rw [← Slot.given_resting, hφ.keeps.resting, Slot.given_resting, onSlot_of_some hs,
        onSlot_of_some hs']
      exact hstore

theorem recount (h : SameInput event g g') (b b' : Bool) (m m' n n' : Nat) :
    SameInput event { g with running := b, events := m, ticks := n }
      { g' with running := b', events := m', ticks := n' } :=
  ⟨h.left.recount _ _ _, h.right.recount _ _ _, h.slot_eq, h.store⟩

theorem left_onSlots (h : SameInput event g g') (hφ : Confined φ)
    (hown : ∀ k s, SameInput event k g' → k.slots[event]? = some s →
      (φ k s).2.current = s.current ∧ k.arena.store.AgreeOn s.given (φ k s).1.arena.store) :
    SameInput event (g.onSlots φ) g' :=
  onSlots_induction (Q := fun k => SameInput event k g')
    (fun k _ hk => hk.left_onSlot hφ fun s _ hs => hown k s hk hs) h

theorem onSlots (h : SameInput event g g') (hφ : Confined φ)
    (hown : ∀ k k' s s', SameInput event k k' → k.slots[event]? = some s →
      k'.slots[event]? = some s' → s.current = s'.current → (φ k s).2.current = (φ k' s').2.current ∧
        (φ k s).1.arena.store.AgreeOn s.given (φ k' s').1.arena.store) :
    SameInput event (g.onSlots φ) (g'.onSlots φ) := by
  refine onSlots_related (Q := fun _ => SameInput event) (fun i k k' hk => ?_)
    (h.right.contained.count.trans h.left.contained.count.symm) h
  by_cases hi : i = event
  · subst hi
    exact hk.onSlot hφ fun s s' hs hs' hc => hown k k' s s' hk hs hs' hc
  · have hleft := hk.left_onSlot (i := i) hφ fun s he => absurd he hi
    exact (hleft.symm.left_onSlot hφ fun s he => absurd he hi).symm

theorem left_apply (h : SameInput event g g') {c : RunCall} {ended : Bool}
    (hc : c.bears event ended = false) (hbegin : c ≠ .during (.beginEvent event))
    (hclear : ended = false → ∀ s ∈ g.slots[event]?, ∀ i, s.bits.test i = false) :
    SameInput event (c.apply g) g' := by
  cases c with
  | beginRun =>
    obtain rfl : ended = false := hc
    refine (h.left_onSlots confined_beginRunSlot fun k s hk hs => ?_).recount _ _ _ _ _ _
    obtain ⟨hcurrent, hstore⟩ :=
      beginRunSlot_given hk.left.contained.wired (List.mem_of_getElem? hs)
    refine ⟨?_, hstore⟩
    obtain ⟨s₀, hs₀, hc₀⟩ := (hk.trans h.symm).exists_slot hs
    obtain ⟨-, -, hbits⟩ := Slot.parts_of_current hc₀
    have hcleared : s.bits.clear = s.bits := by
      refine ConditionBits.eq_of_test s.bits.length_clear fun i => ?_
      rw [ConditionBits.test_clear, hbits, hclear rfl s₀ hs₀]
    rw [hcurrent, hcleared]
    rfl
  | endRun =>
    refine (h.left_onSlots confined_endRunSlot fun k s hk hs => ?_).recount _ _ _ _ _ _
    exact endRunSlot_given hk.left.contained.wired (List.mem_of_getElem? hs)
  | during c =>
    cases c with
    | beginEvent e =>
      refine h.left_onSlot confined_beginEventSlot fun s he _ => ?_
      exact absurd (he ▸ rfl) hbegin
    | feed e moduleIndex words =>
      refine h.left_onSlot (confined_feedSlot moduleIndex words) fun s he _ => ?_
      exact absurd he (of_decide_eq_false hc)
    | endEvent e =>
      refine h.left_onSlot confined_endEventSlot fun s he _ => ?_
      exact absurd he (of_decide_eq_false hc)
    | tick =>
      refine (h.left_onSlots confined_tickSlot fun k s _ _ => ?_).recount _ _ _ _ _ _
      exact ⟨current_of_keeps keeps_tickSlot rfl, .refl _ _⟩

theorem apply (h : SameInput event g g') (hm : ∀ s ∈ g.slots[event]?, s.Memoryless) {c : RunCall}
    (hc : c.bears event true = true) : SameInput event (c.apply g) (c.apply g') := by
  cases c with
  | beginRun =>
    refine (h.onSlots confined_beginRunSlot fun k k' s s' hk hs hs' hcur => ?_).recount _ _ _ _ _ _
    obtain ⟨hcurrent, hstore⟩ :=
      beginRunSlot_given hk.left.contained.wired (List.mem_of_getElem? hs)
    obtain ⟨hcurrent', hstore'⟩ :=
      beginRunSlot_given hk.right.contained.wired (List.mem_of_getElem? hs')
    rw [← given_of_current hcur] at hstore'
    refine ⟨?_, (hstore.symm.trans (hk.store s hs)).trans hstore'⟩
    obtain ⟨-, -, hbits⟩ := Slot.parts_of_current hcur
    rw [hcurrent, hcurrent', hcur, hbits]
  | endRun => cases hc
  | during c =>
    cases c with
    | beginEvent e => cases hc
    | feed e moduleIndex words =>
      obtain rfl : e = event := of_decide_eq_true hc
      refine h.onSlot (confined_feedSlot moduleIndex words) fun s s' hs _ hcur => ?_
      exact feedSlot_current (h.left.contained.slots s (List.mem_of_getElem? hs)) (hm s hs) hcur
        (h.store s hs) moduleIndex words
    | endEvent e =>
      obtain rfl : e = event := of_decide_eq_true hc
      refine h.onSlot confined_endEventSlot fun s s' hs _ hcur => ?_
      obtain ⟨hsources, hoperators, hbits⟩ := Slot.parts_of_current hcur
      obtain ⟨hbits, hstore⟩ := h.left.endEvent_alike h.right (List.mem_of_getElem? hs)
        (hm s hs).operators (Slot.resting_of_current hcur) hbits (h.store s hs)
      refine ⟨?_, hstore.mono fun _ => Or.inl⟩
      rw [current_of_keeps keeps_endEventSlot rfl, current_of_keeps keeps_endEventSlot rfl, hcur,
        hbits]
    | tick => cases hc

theorem run (h : SameInput event g g') (hm : ∀ s ∈ g.slots[event]?, s.Memoryless)
    {calls : List RunCall} (hbegin : .during (.beginEvent event) ∉ calls) {ended : Bool}
    (hclear : ended = false → ∀ s ∈ g.slots[event]?, ∀ i, s.bits.test i = false) :
    SameInput event (calls.foldl RunCall.apply g)
      ((RunCall.bearing event ended calls).foldl RunCall.apply g') := by
  -- before the event has ended none of its bits is set, and a beginning of a run clears nothing
  induction calls generalizing g g' ended with
  | nil => exact h
  | cons c calls ih =>
    rw [List.mem_cons, not_or] at hbegin
    have hm' : ∀ s ∈ (c.apply g).slots[event]?, s.Memoryless := by
      intro s hs
      obtain ⟨t, ht, hr⟩ :=
        slot_resting_run (show s ∈ ([c].foldl RunCall.apply g).slots[event]? from hs)
      exact (hm t ht).of_resting hr
    have hclear' : (ended || c.ends event) = false →
        ∀ s ∈ (c.apply g).slots[event]?, ∀ i, s.bits.test i = false := by
      intro hnot
      rw [Bool.or_eq_false_iff] at hnot
      refine bits_apply (fun hend => ?_) (hclear hnot.1)
      rw [RunCall.ends_iff.2 hend] at hnot
      cases hnot.2
    rw [RunCall.bearing]
    cases hc : c.bears event ended with
    | true => exact ih (h.apply hm (RunCall.bears_mono hc)) hm' hbegin.2 hclear'
    | false =>
      have hends : c.ends event = false := by
        cases c with
        | during c =>
          cases c with
          | endEvent e => exact hc
          | _ => rfl
        | _ => rfl
      rw [hends, Bool.or_false] at hclear'
      exact ih (h.left_apply hc (Ne.symm hbegin.1) hclear) hm' hbegin.2 hclear'

end SameInput

/-- The beginning of an event makes it the same in graphs that have nothing in common but their
constants. -/
theorem sameInput_beginEvent (h : g.Idling) (h' : g'.Idling) (hl : g.layout = g'.layout)
    (hfixed : ∀ s ∈ g.slots[event]?,
      g.arena.store.AgreeOn (fun i => ∃ p ∈ s.fixed, i ∈ p) g'.arena.store) :
    SameInput event (g.beginEvent event) (g'.beginEvent event) := by
  have hidle := h.onSlot confined_beginEventSlot event
  have hidle' := h'.onSlot confined_beginEventSlot event
  cases hs : g.slots[event]? with
  | none =>
    have hs' := slot_eq_none_of_layout hl hs
    rw [beginEvent, beginEvent, onSlot_of_none hs, onSlot_of_none hs']
    exact ⟨h, h', by rw [hs, hs'], fun s hsome => by simp [hs] at hsome⟩
  | some s =>
    have hslot := getElem?_layout hl event
    rw [getElem?_layout rfl, hs, Option.map_some] at hslot
    obtain ⟨s', hs', hr⟩ := Option.map_eq_some_iff.1 hslot
    have hsources : s.sources.map (Numbered.map Source.resting) =
        s'.sources.map (Numbered.map Source.resting) := by
      rw [show s.sources.map _ = s.resting.sources from rfl, ← hr]
      rfl
    have hfit : ∀ n ∈ s.sources, ∀ p ∈ n.node.outputs, p.data.stop ≤ g.arena.store.slots :=
      fun n hn p hp =>
        h.contained.wired.pipe_fits (List.mem_of_getElem? hs) (Slot.source_pipe hn hp)
    obtain ⟨hcurrent, hstore⟩ := Slot.mapSources_renews hsources hfit (hfixed s hs)
    refine ⟨hidle, hidle', ?_, fun t ht => ?_⟩
    · have hoperators : s.resting.operators = s'.resting.operators := by rw [hr]
      have hbits : s.bits.clear = s'.bits.clear := congrArg Slot.bits hr.symm
      have hslot := congr (congr (congrArg Slot.mk hcurrent) hoperators) hbits
      rw [beginEvent, beginEvent, slots_onSlot keeps_beginEventSlot,
        slots_onSlot keeps_beginEventSlot, if_pos rfl, if_pos rfl, hs, hs']
      exact congrArg some hslot
    · change t ∈ (g.onSlot event beginEventSlot).slots[event]? at ht
      rw [slots_onSlot keeps_beginEventSlot, if_pos rfl, hs] at ht
      obtain rfl := Option.some.inj ht
      rw [← Slot.given_resting, keeps_beginEventSlot.resting, Slot.given_resting, beginEvent,
        beginEvent, onSlot_of_some hs, onSlot_of_some hs']
      exact hstore

/-- Two graphs with the same condition bits in an event and the same outputs of all its nodes. -/
structure SameOutcome (event : Nat) (g g' : Graph) : Prop where
  bits : g.slots[event]?.map Slot.bits = g'.slots[event]?.map Slot.bits
  pipes : g.slots[event]?.map Slot.pipes = g'.slots[event]?.map Slot.pipes
  values : ∀ s ∈ g.slots[event]?, ∀ p ∈ s.pipes, ∀ t ∈ p.spans,
    g.arena.store.values t = g'.arena.store.values t

theorem SameInput.endEvent (h : SameInput event g g')
    (hm : ∀ s ∈ g.slots[event]?, s.Memoryless) :
    SameOutcome event (g.endEvent event) (g'.endEvent event) := by
  cases hs : g.slots[event]? with
  | none =>
    have hs' : g'.slots[event]? = none := by
      have heq := h.slot_eq
      rw [hs] at heq
      exact Option.map_eq_none_iff.1 heq.symm
    rw [Graph.endEvent, Graph.endEvent, onSlot_of_none hs, onSlot_of_none hs']
    exact ⟨by rw [hs, hs'], by rw [hs, hs'], fun s hsome => by simp [hs] at hsome⟩
  | some s =>
    obtain ⟨s', hs', hc⟩ := h.exists_slot hs
    obtain ⟨-, -, hbits⟩ := Slot.parts_of_current hc
    obtain ⟨hbits, hstore⟩ := h.left.endEvent_alike h.right (List.mem_of_getElem? hs)
      (hm s hs).operators (Slot.resting_of_current hc) hbits (h.store s hs)
    have hslot : (g.endEvent event).slots[event]? = some (endEventSlot g s).2 := by
      rw [Graph.endEvent, slots_onSlot keeps_endEventSlot, if_pos rfl, hs, Option.map_some]
    have hslot' : (g'.endEvent event).slots[event]? = some (endEventSlot g' s').2 := by
      rw [Graph.endEvent, slots_onSlot keeps_endEventSlot, if_pos rfl, hs', Option.map_some]
    have hpipes : ∀ (g : Graph) s, (endEventSlot g s).2.pipes = s.pipes := fun g s => by
      rw [← Slot.pipes_resting, keeps_endEventSlot.resting, Slot.pipes_resting]
    refine ⟨?_, ?_, fun t ht p hp q hq => ?_⟩
    · rw [hslot, hslot', Option.map_some, Option.map_some, hbits]
    · rw [hslot, hslot', Option.map_some, Option.map_some, hpipes, hpipes, ← Slot.pipes_resting,
        Slot.resting_of_current hc, Slot.pipes_resting]
    · rw [hslot] at ht
      obtain rfl := Option.some.inj ht
      rw [hpipes] at hp
      rw [Graph.endEvent, Graph.endEvent, onSlot_of_some hs, onSlot_of_some hs']
      exact hstore.values_eq fun i hi => Slot.given_or_filled hp hq hi

/-- What an event without stateful operators and dither has computed when it ends is decided by the
calls that bear on it since it began: the words that it was handed, and the ends that it had before.
It does not matter what went before it, nor what went on in other events. -/
theorem event_isolated {c : Config} {seed : UInt64} {volume : Volume} {a : Analysis}
    (h : c.build seed volume = .ok a) (event : Nat)
    (hm : ∀ s ∈ a.graph.slots[event]?, s.Memoryless) (history history' during during' : List RunCall)
    (hbegin : .during (.beginEvent event) ∉ during)
    (hbegin' : .during (.beginEvent event) ∉ during')
    (hbearing : RunCall.bearing event false during = RunCall.bearing event false during') :
    let after (history during : List RunCall) : Graph :=
      (history ++ RunCall.during (.beginEvent event) :: during ++
        [RunCall.during (.endEvent event)]).foldl RunCall.apply a.graph
    SameOutcome event (after history during) (after history' during') := by
  intro after
  have hidle := Config.idling_build h
  let start (history : List RunCall) : Graph :=
    (history ++ [RunCall.during (.beginEvent event)]).foldl RunCall.apply a.graph
  have hafter : ∀ history during, after history during =
      (during.foldl RunCall.apply (start history)).endEvent event := fun history during => by
    simp only [after, start, List.foldl_append, List.foldl_cons, List.foldl_nil]
    rfl
  have hmemoryless : ∀ calls : List RunCall,
      ∀ s ∈ (calls.foldl RunCall.apply a.graph).slots[event]?, s.Memoryless := by
    intro calls s hs
    obtain ⟨t, ht, hr⟩ := slot_resting_run hs
    exact (hm t ht).of_resting hr
  have hclear : ∀ history, ∀ s ∈ (start history).slots[event]?, ∀ i, s.bits.test i = false :=
    fun history s hs => bits_underway ⟨history, [], rfl, by simp⟩ hs
  have hstart : SameInput event (start history) (start history') := by
    have hsplit : ∀ history, start history =
        (history.foldl RunCall.apply a.graph).beginEvent event := fun history => by
      simp only [start, List.foldl_append]
      rfl
    rw [hsplit, hsplit]
    refine sameInput_beginEvent (hidle.run history) (hidle.run history') ?_ fun s hs => ?_
    · rw [layout_run, layout_run]
    · obtain ⟨t, ht, hr⟩ := slot_resting_run hs
      have hfixed := fixed_run hidle (List.mem_of_getElem? ht)
      rw [← Slot.fixed_resting, hr, Slot.fixed_resting]
      exact (hfixed history).symm.trans (hfixed history')
  have hrun := hstart.run (hmemoryless _) hbegin fun _ : false = false => hclear history
  have hrun' := (SameInput.refl hstart.right event).run (hmemoryless _) hbegin'
    fun _ : false = false => hclear history'
  rw [hbearing] at hrun
  rw [hafter, hafter]
  refine (hrun.trans hrun'.symm).endEvent ?_
  rw [← List.foldl_append]
  exact hmemoryless _

/-- Hits of one event are counted. One condition asks for a single hit, another one asks for it
again behind the first one, and a filter runs behind both. -/
def singleHits : Config where
  arenaCapacity := 4096
  strategy := .batched
  seed := some 1
  events := [⟨0, [⟨"hits", 3, none, true, false, .word "AADD" .perHit 1⟩],
    [⟨"count", none, .aggregate "hits" .multiplicity none none⟩,
      ⟨"single", none, .intervalCondition "count" [(.one, .two)]⟩,
      ⟨"alone", some "single", .intervalCondition "count" [(.one, .two)]⟩,
      ⟨"passed", some "alone", .rangeFilter "hits" .zero .two false⟩]⟩]

theorem event_isolated_singleHits : ∃ a, singleHits.build 0 .fresh = .ok a ∧
    (∀ s ∈ a.graph.slots[0]?, s.Memoryless) ∧
      let history : List RunCall := [.beginRun, .during (.beginEvent 0), .during (.feed 0 3 [1]),
        .during (.endEvent 0)]
      let during : List RunCall := [.during (.feed 0 3 [5]), .during (.beginEvent 4), .endRun,
        .during (.endEvent 0), .beginRun, .during .tick]
      let during' : List RunCall := [.beginRun, .during (.feed 0 3 [5]), .during (.endEvent 0),
        .beginRun, .during (.endEvent 1)]
      let after (history during : List RunCall) : Graph :=
        (history ++ RunCall.during (.beginEvent 0) :: during ++
          [RunCall.during (.endEvent 0)]).foldl RunCall.apply a.graph
      .during (.beginEvent 0) ∉ during ∧ .during (.beginEvent 0) ∉ during' ∧
        RunCall.bearing 0 false during = RunCall.bearing 0 false during' ∧
          SameOutcome 0 (after history during) (after [] during') := by
  obtain ⟨a, ha, hm⟩ := singleHits.exists_of_passes 0 .fresh
    (fun g => decide (∀ s ∈ g.slots[0]?, Slot.Memoryless s)) (by decide +kernel)
  have hm := of_decide_eq_true hm
  exact ⟨a, ha, hm, by simp, by simp, rfl,
    event_isolated ha 0 hm _ [] _ _ (by simp) (by simp) rfl⟩

/-- An end in between leaves a condition bit that no operator clears, because the condition behind
a closed gate does not write its bits. So words alone do not decide what an event makes of them. -/
theorem event_isolated_reopened : ∃ a, singleHits.build 0 .fresh = .ok a ∧
    (∀ s ∈ a.graph.slots[0]?, s.Memoryless) ∧
      let once : List RunCall := [.beginRun, .during (.beginEvent 0), .during (.feed 0 3 [1]),
        .during (.feed 0 3 [5]), .during (.endEvent 0)]
      let twice : List RunCall := [.beginRun, .during (.beginEvent 0), .during (.feed 0 3 [1]),
        .during (.endEvent 0), .during (.feed 0 3 [5]), .during (.endEvent 0)]
      once.filter (RunCall.feeds 0) = twice.filter (RunCall.feeds 0) ∧
        ¬ SameOutcome 0 (once.foldl RunCall.apply a.graph) (twice.foldl RunCall.apply a.graph) := by
  obtain ⟨a, ha, h⟩ := singleHits.exists_of_passes 0 .fresh (fun g =>
    let first := ((g.beginRun).beginEvent 0).feed 0 3 [1]
    decide ((∀ s ∈ g.slots[0]?, Slot.Memoryless s) ∧
      ((first.feed 0 3 [5]).endEvent 0).slots[0]?.map Slot.bits = some ⟨[false, false]⟩ ∧
      (((first.endEvent 0).feed 0 3 [5]).endEvent 0).slots[0]?.map Slot.bits =
        some ⟨[false, true]⟩)) (by decide +kernel)
  obtain ⟨hm, honce, htwice⟩ := of_decide_eq_true h
  refine ⟨a, ha, hm, rfl, fun hsame => ?_⟩
  have hbits := honce.symm.trans (hsame.bits.trans htwice)
  simp at hbits

end Graph

end Readout
