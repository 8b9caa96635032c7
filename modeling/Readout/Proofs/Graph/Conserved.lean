import Readout.Proofs.Graph.Fixed
import Readout.Proofs.Graph.Gating
import Readout.Proofs.Graph.Strategy
import Readout.Proofs.Operator.Tally

/-!
# Conservation of counts

Between the calls of a run, what a histogram has counted is the number of events since the run began
in which its gate was open and its coordinates were numbers. While an event ends the bins may be
missing increments that are queued; the flush at its end makes up for them. No other node reaches
the bins of a histogram, and no other call its counters.
-/
namespace Readout

namespace Slot

theorem getElem?_mapOperators (φ : Operator → Frame → Operator × Frame)
    (ns : List (Numbered RankedOperator)) (f : Frame) (place : Nat) :
    (mapOperators φ ns f).1[place]? = ns[place]?.map fun n => { n with node := { n.node with
      operator := (φ n.node.operator (mapOperators φ (ns.take place) f).2).1 } } := by
  induction ns generalizing place f with
  | nil => rfl
  | cons m ns ih =>
    cases place with
    | zero => rfl
    | succ place => exact ih _ place

theorem split_operators {ns : List (Numbered RankedOperator)} {place : Nat}
    {n : Numbered RankedOperator} (hn : ns[place]? = some n) :
    ns = ns.take place ++ n :: ns.drop (place + 1) := by
  obtain ⟨hlt, rfl⟩ := List.getElem?_eq_some_iff.1 hn
  rw [List.getElem_cons_drop, List.take_append_drop]

/-- The bins of all histograms of a slot. -/
def binned (s : Slot) (i : Nat) : Prop := ∃ a ∈ s.nodes, ∃ p ∈ a.kind.bins, i ∈ p

end Slot

/-- The frame of a slot whose bins are incremented at once. -/
def Graph.promptFrame (g : Graph) (s : Slot) : Frame :=
  { g.frame s with filler := ⟨.direct, 0, []⟩ }

namespace Slot.Guarded

variable {s : Slot} {g : Graph} {before behind : List (Numbered RankedOperator)}
  {n : Numbered RankedOperator}

theorem bins (h : s.Guarded) (hsplit : s.operators = before ++ behind) :
    ∀ m ∈ before ++ behind, m.node.operator.Bins s.binned := fun _ hm =>
  h.laid.bins _ (List.mem_map_of_mem (hsplit ▸ hm))

theorem defers_prompt (h : s.Guarded) (hsplit : s.operators = before ++ behind)
    (hq : g.filler.queue = []) :
    (passed before (g.frame s)).Defers s.binned [] (passed before (g.promptFrame s)) := by
  have hstart : (g.frame s).Defers s.binned [] (g.promptFrame s) :=
    ⟨⟨[], hq, by simp, fun _ => rfl⟩, rfl, rfl, rfl, rfl⟩
  exact (mapOperators_defers (fun m hm => h.bins hsplit m (List.mem_append_left _ hm)) hstart).2

/-- What is queued while an event ends is made up for when it has ended. -/
theorem agree_prompt (h : s.Guarded) (hq : g.filler.queue = []) :
    Store.Same (passed s.operators (g.promptFrame s)).store
      (Graph.endEventSlot g s).1.arena.store := by
  have hend := h.defers_prompt (List.append_nil _).symm hq
  exact ⟨hend.slots_eq.symm.trans (Filler.slots_flush _ _).symm,
    fun k _ => (hend.read_flush k).symm⟩

/-- While an event ends, a histogram counts the coordinates that it finds when it steps. -/
theorem tallied_end (h : s.Guarded) (hsplit : s.operators = before ++ n :: behind)
    (hq : g.filler.queue = []) (hroom : g.arena.store.slots < Word.size 32)
    (hfit : ∀ p ∈ n.node.operator.kind.bins, p.stop ≤ g.arena.store.slots)
    {taken : (List (List Value) → Bool) → Nat}
    (ht : n.node.operator.kind.Tallied g.arena.store taken) :
    (n.node.operator.step (passed before (g.frame s))).1.kind.Tallied
      (Graph.endEventSlot g s).1.arena.store fun test => taken test +
        if n.node.operator.isOpen (passed before (g.frame s)).bits &&
          test (n.node.operator.inputValues (passed before (g.frame s))) then 1 else 0 := by
  have hin : n.node.operator ∈ s.nodes := by
    rw [nodes, hsplit]
    exact List.mem_map_of_mem (List.mem_append_right _ List.mem_cons_self)
  have hn := h.bins hsplit n (List.mem_append_right _ List.mem_cons_self)
  have hdefers := h.defers_prompt hsplit hq
  have hinputs : n.node.operator.inputValues (passed before (g.frame s)) =
      n.node.operator.inputValues (passed before (g.promptFrame s)) :=
    List.map_congr_left fun v hv => hdefers.agree.store.values_eq fun i hi =>
      hn.reads i (Operator.reads_input hv v.data_mem_spans i hi)
  -- nobody else reaches the bins
  have hbeyond := h.part_beyond hsplit
  have hfront : (g.promptFrame s).AgreeOn _ (passed before (g.promptFrame s)) :=
    mapOperators_step_frame (fun m hm => hbeyond m (List.mem_append_left _ hm)) _
  have hback := mapOperators_step_frame (fun m hm => hbeyond m (List.mem_append_right _ hm))
    (n.node.operator.step (passed before (g.promptFrame s))).2
  have howned : ∀ i, (∃ p ∈ n.node.operator.kind.bins, i ∈ p) →
      ∃ p ∈ n.node.operator.owned, i ∈ p := by
    rintro i ⟨p, hp, hi⟩
    exact ⟨p, List.mem_append_right _ hp, hi⟩
  have hslots : (passed before (g.promptFrame s)).store.slots = g.arena.store.slots :=
    hfront.store.slots_eq.symm
  have hapart := (List.pairwise_append.1 ((List.pairwise_flatMap.1 h.laid.apart).1 _ hin)).2.1
  have htallied := Operator.tallied_step hdefers.direct (h.laid.shaped _ hin) (hslots ▸ hroom)
    (hslots ▸ hfit) hapart (ht.agree (hfront.store.mono howned))
  have hend : passed s.operators (g.promptFrame s) = (mapOperators Operator.step behind
      (n.node.operator.step (passed before (g.promptFrame s))).2).2 := by
    rw [passed, hsplit, mapOperators_append]
    rfl
  have hkept : (n.node.operator.step (passed before (g.promptFrame s))).1.kind.bins =
      n.node.operator.kind.bins := by
    rw [← Kind.bins_resting, ← Operator.kind_resting, Operator.resting_step,
      Operator.kind_resting, Kind.bins_resting]
  rw [(hn.step hdefers).1, hinputs, hdefers.bits_eq]
  refine htallied.agree (.trans (hback.store.mono fun i hi => howned i (hkept ▸ hi)) ?_)
  rw [← hend]
  exact (h.agree_prompt hq).mono fun _ _ => trivial

/-- When a run begins, what a histogram has counted is forgotten. -/
theorem tallied_begin (h : s.Guarded) (hsplit : s.operators = before ++ n :: behind) (f : Frame)
    (hfit : ∀ p ∈ n.node.operator.kind.bins, p.stop ≤ f.store.slots) :
    (n.node.operator.beginRun (mapOperators Operator.beginRun before f).2).1.kind.Tallied
      (mapOperators Operator.beginRun s.operators f).2.store fun _ => 0 := by
  have hroom := (mapOperators_phase Operator.phase_beginRun before f).2.2
  have hzero := n.node.operator.tallied_beginRun
    (f := (mapOperators Operator.beginRun before f).2) (hroom ▸ hfit)
  have hbeyond := h.part_beyond hsplit
  have hback := mapOperators_store (φ := Operator.beginRun)
    (P := fun i => ∃ p ∈ n.node.operator.owned, i ∈ p) (fun m (hm : m ∈ behind) f =>
      Operator.beginRun_frame (fun p hp => (hbeyond m (List.mem_append_right _ hm)).slots p
        (m.node.operator.cleared_subset hp)) f)
    (n.node.operator.beginRun (mapOperators Operator.beginRun before f).2).2
  have hkept : (n.node.operator.beginRun (mapOperators Operator.beginRun before f).2).1.kind.bins =
      n.node.operator.kind.bins := by
    rw [← Kind.bins_resting, ← Operator.kind_resting, Operator.phase_beginRun.resting,
      Operator.kind_resting, Kind.bins_resting]
  rw [hsplit, mapOperators_append]
  exact hzero.agree (hback.mono fun i ⟨p, hp, hi⟩ => ⟨p, List.mem_append_right _ (hkept ▸ hp), hi⟩)

end Slot.Guarded

namespace Graph

variable {g : Graph} {s : Slot} {event place : Nat} {taken : (List (List Value) → Bool) → Nat}

/-- Whether an operator computes when the event ends, on values that pass a test. -/
def accepts (g : Graph) (event place : Nat) (test : List (List Value) → Bool) : Bool :=
  g.slots[event]?.any fun s => s.operators[place]?.any fun n =>
    let during := Slot.passed (s.operators.take place) (g.frame s)
    n.node.operator.isOpen during.bits && test (n.node.operator.inputValues during)

def counts (g : Graph) (event place : Nat) (test : List (List Value) → Bool) : RunCall → Nat
  | .during (.endEvent e) => if e = event ∧ g.accepts event place test then 1 else 0
  | _ => 0

/-- The number of ends of an event at which an operator computes on values that pass a test. -/
def accepted (event place : Nat) (test : List (List Value) → Bool) : Graph → List RunCall → Nat
  | _, [] => 0
  | g, c :: calls => g.counts event place test c + accepted event place test (c.apply g) calls

/-- A graph between two calls. -/
structure Quiet (g : Graph) : Prop where
  wired : g.Wired
  guarded : ∀ s ∈ g.slots, s.Guarded
  queue : g.filler.queue = []
  room : g.arena.store.slots < Word.size 32

theorem Quiet.of_layout {g' : Graph} (h : g.Quiet) (hl : g'.layout = g.layout)
    (hq : g'.filler.queue = []) : g'.Quiet := by
  have hslots : g'.slots.map Slot.resting = g.slots.map Slot.resting := congrArg Layout.slots hl
  have hroom : g'.arena.store.slots = g.arena.store.slots := congrArg Layout.room hl
  refine ⟨h.wired.of_layout hl, fun s hs => ?_, hq, hroom ▸ h.room⟩
  obtain ⟨t, ht, hts⟩ := List.mem_map.1 (hslots ▸ List.mem_map_of_mem hs :
    s.resting ∈ g.slots.map Slot.resting)
  exact (h.guarded t ht).of_resting hts.symm

theorem Quiet.onSlot {φ : Graph → Slot → Graph × Slot} (h : g.Quiet) (hφ : Confined φ) (i : Nat) :
    (g.onSlot i φ).Quiet :=
  h.of_layout (layout_onSlot hφ.keeps g i) (queue_onSlot hφ.queue g i h.queue)

/-- The operator in a place of an event has counted so many coordinates. -/
def Tallied (g : Graph) (event place : Nat) (taken : (List (List Value) → Bool) → Nat) : Prop :=
  ∀ s n, g.slots[event]? = some s → s.operators[place]? = some n →
    n.node.operator.kind.Tallied g.arena.store taken

/-- A function of slots that counts nothing. -/
def Uncounted (φ : Graph → Slot → Graph × Slot) : Prop :=
  ∀ (g : Graph) (s : Slot) (place : Nat) (taken : (List (List Value) → Bool) → Nat), g.Quiet →
    s ∈ g.slots →
      (∀ n, s.operators[place]? = some n → n.node.operator.kind.Tallied g.arena.store taken) →
        ∀ n, (φ g s).2.operators[place]? = some n →
          n.node.operator.kind.Tallied (φ g s).1.arena.store taken

theorem Tallied.visit {φ : Graph → Slot → Graph × Slot} (hφ : Keeps φ)
    (hs : g.slots[event]? = some s) (h : ∀ n, (φ g s).2.operators[place]? = some n →
      n.node.operator.kind.Tallied (φ g s).1.arena.store taken) :
    (g.onSlot event φ).Tallied event place taken := by
  intro t n ht hn
  rw [slots_onSlot hφ, if_pos rfl, hs] at ht
  obtain rfl := Option.some.inj ht
  rw [onSlot_of_some hs]
  exact h n hn

/-- Visits of other events count nothing. -/
theorem Tallied.pass {φ : Graph → Slot → Graph × Slot} (hφ : Confined φ) (hg : g.Quiet)
    (h : g.Tallied event place taken) {i : Nat} (hi : i ≠ event) :
    (g.onSlot i φ).Tallied event place taken := by
  intro s n hs hn
  rw [slots_onSlot hφ.keeps, if_neg hi] at hs
  have hop : n.node.operator ∈ s.nodes := List.mem_map_of_mem (List.mem_of_getElem? hn)
  have hstore := store_onSlot hφ hg.queue fun t ht =>
    hg.wired.outside (F := fun _ => False) hs ht hi.symm fun _ _ _ => False.elim
  exact (h s n hs hn).agree (hstore.mono fun k ⟨p, hp, hk⟩ =>
    ⟨p, Slot.owned_subset hop (List.mem_append_right _ hp), hk⟩)

theorem Tallied.onSlot {φ : Graph → Slot → Graph × Slot} (hφ : Confined φ) (hu : Uncounted φ)
    (hg : g.Quiet) (h : g.Tallied event place taken) (i : Nat) :
    (g.onSlot i φ).Tallied event place taken := by
  by_cases hi : i = event
  · subst hi
    cases hs : g.slots[i]? with
    | none => rwa [onSlot_of_none hs]
    | some s => exact .visit hφ.keeps hs (hu g s place taken hg (List.mem_of_getElem? hs) (h s · hs))
  · exact h.pass hφ hg hi

/-- The sources of a slot do not reach the bins of its operators. -/
theorem Quiet.spares (h : g.Quiet) (hs : s ∈ g.slots) {op : Operator} (ho : op ∈ s.nodes) :
    ∀ m ∈ s.sources, m.node.Spares fun i => ∃ p ∈ op.kind.bins, i ∈ p := by
  rintro m hm q hq i hiq ⟨p, hp, hip⟩
  have hslot := List.pairwise_append.1 ((List.pairwise_flatMap.1 h.wired.apart).1 s hs)
  exact hslot.2.2 q (List.mem_flatMap.2 ⟨m, hm, m.node.written_subset hq⟩) p
    (List.mem_flatMap.2 ⟨op, ho, List.mem_append_right _ hp⟩) i hiq hip

theorem uncounted_beginEventSlot : Uncounted beginEventSlot := fun g _ _ _ hg hs h n hn =>
  (h n hn).agree (Slot.mapSources_frame (fun _ st hm => Source.beginEvent_frame hm st)
    (hg.spares hs (List.mem_map_of_mem (List.mem_of_getElem? hn))) g.arena.store)

theorem uncounted_feedSlot (moduleIndex : Nat) (words : List UInt32) :
    Uncounted (feedSlot moduleIndex words) := fun g _ _ _ hg hs h n hn =>
  (h n hn).agree (Slot.feedSources_frame moduleIndex words
    (hg.spares hs (List.mem_map_of_mem (List.mem_of_getElem? hn))) g.arena.store)

theorem uncounted_tickSlot : Uncounted tickSlot := by
  intro g s place taken hg hs h n hn
  rw [tickSlot, Slot.getElem?_mapOperators] at hn
  obtain ⟨m, hm, rfl⟩ := Option.map_eq_some_iff.1 hn
  exact Operator.tallied_tick (h m hm) _

theorem uncounted_endRunSlot : Uncounted endRunSlot := by
  intro g s place taken hg hs h n hn
  have hstore : Store.Same (g.frame s).store
      (Slot.mapOperators Operator.endRun s.operators (g.frame s)).2.store :=
    Slot.mapOperators_store (fun m _ f => by rw [Operator.endRun_store]; exact .refl _ _) _
  rw [endRunSlot, Slot.getElem?_mapOperators] at hn
  obtain ⟨m, hm, rfl⟩ := Option.map_eq_some_iff.1 hn
  exact (Operator.tallied_endRun (h m hm) _).agree (hstore.mono fun _ _ => trivial)

/-- At its end an event counts what its operators accept. -/
theorem Tallied.endEvent (hg : g.Quiet) (h : g.Tallied event place taken) :
    (g.endEvent event).Tallied event place
      fun test => taken test + if g.accepts event place test then 1 else 0 := by
  cases hs : g.slots[event]? with
  | none =>
    intro s n hs'
    rw [Graph.endEvent, onSlot_of_none hs, hs] at hs'
    cases hs'
  | some s =>
    refine .visit keeps_endEventSlot hs fun n' hn' => ?_
    have hmem := List.mem_of_getElem? hs
    simp only [endEventSlot, Slot.getElem?_mapOperators] at hn'
    obtain ⟨n, hn, rfl⟩ := Option.map_eq_some_iff.1 hn'
    have hfit : ∀ p ∈ n.node.operator.kind.bins, p.stop ≤ g.arena.store.slots := fun p hp =>
      hg.wired.fits s hmem p (Slot.owned_subset (List.mem_map_of_mem (List.mem_of_getElem? hn))
        (List.mem_append_right _ hp))
    have hend := (hg.guarded s hmem).tallied_end (Slot.split_operators hn) hg.queue hg.room hfit
      (h s n hs hn)
    simp only [accepts, hs, hn, Option.any_some]
    exact hend

theorem Tallied.beginRunSlot (hg : g.Quiet) :
    (g.onSlot event beginRunSlot).Tallied event place fun _ => 0 := by
  cases hs : g.slots[event]? with
  | none =>
    intro s n hs'
    rw [onSlot_of_none hs, hs] at hs'
    cases hs'
  | some s =>
    refine .visit keeps_beginRunSlot hs fun n' hn' => ?_
    have hmem := List.mem_of_getElem? hs
    simp only [Graph.beginRunSlot, Slot.getElem?_mapOperators] at hn'
    obtain ⟨n, hn, rfl⟩ := Option.map_eq_some_iff.1 hn'
    have hroom := (Slot.mapSources_keeps (fun n st => (n, n.beginRun st))
      (fun n st => ⟨rfl, st.slots_fill n.hitCounts _⟩) s.sources g.arena.store).2
    refine (hg.guarded s hmem).tallied_begin (Slot.split_operators hn)
      ((g.withStore _).frame s) fun p hp => ?_
    rw [show ((g.withStore _).frame s).store.slots = g.arena.store.slots from hroom]
    exact hg.wired.fits s hmem p (Slot.owned_subset (List.mem_map_of_mem (List.mem_of_getElem? hn))
      (List.mem_append_right _ hp))

/-- When a run has begun nothing has been counted. -/
theorem Quiet.tallied_beginRun (hg : g.Quiet) : g.beginRun.Tallied event place fun _ => 0 := by
  let Q (i : Nat) (k _k : Graph) : Prop := k.Quiet ∧ k.layout = g.layout ∧
    (event < i → k.Tallied event place fun _ => 0)
  have hround : Q g.slots.length (g.onSlots Graph.beginRunSlot) (g.onSlots Graph.beginRunSlot) := by
    refine onSlots_related (Q := Q) (fun i k _ ⟨hk, hl, ht⟩ => ?_) rfl
      ⟨hg, rfl, fun h => absurd h (Nat.not_lt_zero _)⟩
    refine ⟨hk.onSlot confined_beginRunSlot i, (layout_onSlot keeps_beginRunSlot k i).trans hl,
      fun hlt => ?_⟩
    by_cases hi : i = event
    · subst hi
      exact .beginRunSlot hk
    · exact (ht (by omega)).pass confined_beginRunSlot hk hi
  obtain ⟨-, hl, ht⟩ := hround
  intro s n hs hn
  refine ht (Nat.lt_of_not_le fun hle => ?_) s n hs hn
  rw [show g.beginRun.slots = (g.onSlots Graph.beginRunSlot).slots from rfl,
    slot_eq_none_of_layout hl.symm (List.getElem?_eq_none hle)] at hs
  cases hs

theorem Tallied.apply (hg : g.Quiet) (h : g.Tallied event place taken) {c : RunCall}
    (hc : c ≠ .beginRun) : (c.apply g).Tallied event place fun test =>
      taken test + g.counts event place test c := by
  -- a visit of a slot that does not end an event counts nothing
  have hvisit {φ : Graph → Slot → Graph × Slot} (hφ : Confined φ) (hu : Uncounted φ) (i : Nat) :
      (g.onSlot i φ).Tallied event place taken := h.onSlot hφ hu hg i
  have hround {φ : Graph → Slot → Graph × Slot} (hφ : Confined φ) (hu : Uncounted φ) :
      (g.onSlots φ).Tallied event place taken :=
    (onSlots_induction (Q := fun k => k.Quiet ∧ k.Tallied event place taken)
      (fun k i hk => ⟨hk.1.onSlot hφ i, hk.2.onSlot hφ hu hk.1 i⟩) ⟨hg, h⟩).2
  cases c with
  | beginRun => exact absurd rfl hc
  | endRun => exact hround confined_endRunSlot uncounted_endRunSlot
  | during c =>
    cases c with
    | beginEvent e => exact hvisit confined_beginEventSlot uncounted_beginEventSlot e
    | feed e moduleIndex words =>
      exact hvisit (confined_feedSlot moduleIndex words) (uncounted_feedSlot moduleIndex words) e
    | tick => exact hround confined_tickSlot uncounted_tickSlot
    | endEvent e =>
      by_cases he : e = event
      · subst he
        simp only [counts, true_and]
        exact Tallied.endEvent hg h
      · simp only [counts, he, false_and, if_false, Nat.add_zero]
        exact h.pass confined_endEventSlot hg he

theorem Tallied.run (hg : g.Quiet) (h : g.Tallied event place taken) {calls : List RunCall}
    (hcalls : .beginRun ∉ calls) : (calls.foldl RunCall.apply g).Tallied event place fun test =>
      taken test + accepted event place test g calls := by
  induction calls generalizing g taken with
  | nil => exact h
  | cons c calls ih =>
    rw [List.mem_cons, not_or] at hcalls
    have hquiet : (c.apply g).Quiet := hg.of_layout (layout_apply g c) (queue_apply c hg.queue)
    have hrest := ih hquiet (h.apply hg (Ne.symm hcalls.1)) hcalls.2
    simp only [Nat.add_assoc] at hrest
    exact hrest

end Graph

/-- Bins and counters are whole numbers: the bins add up to the entries, and together with what lies
on the sides of the axes the entries add up to the coordinates that were taken. -/
def Conserved (st : Store) (data : Span) (entries underflow overflow : Value) (taken : Nat) :
    Prop :=
  ∃ (ns : List Nat) (u o : Nat), st.values data = ns.map Value.ofNat ∧
    entries = Value.ofNat ns.sum ∧ underflow = Value.ofNat u ∧ overflow = Value.ofNat o ∧
      ns.sum + u + o = taken

/-- No count is lost in any histogram of a kind, as long as doubles can hold the counts. -/
def Kind.Conserved (st : Store) (taken : (List (List Value) → Bool) → Nat) : Kind → Prop
  | histograms hs => ∀ (i : Nat) (h : Histogram), hs[i]? = some h →
      taken (takesElement i) < 2 ^ 53 →
        Readout.Conserved st h.data h.entries h.underflow h.overflow (taken (takesElement i))
  | planeHistogram h => h.xBins * h.yBins < Word.size 64 → taken takesPair < 2 ^ 53 →
      Readout.Conserved st h.data h.entries h.underflow h.overflow (taken takesPair)
  | _ => True

theorem Tallied.conserved {st : Store} {data : Span} {entries underflow overflow : Value}
    {taken : Nat} (h : Tallied st data entries underflow overflow taken) (ht : taken < 2 ^ 53) :
    Conserved st data entries underflow overflow taken := by
  obtain ⟨ns, u, o, hbins, rfl, rfl, rfl, hsum⟩ := h
  refine ⟨ns, u, o, hbins.trans (List.map_congr_left fun n hn => ?_), Value.counted_eq (by omega),
    Value.counted_eq (by omega), Value.counted_eq (by omega), hsum⟩
  have hle := List.le_sum_of_mem hn
  exact Value.counted_eq (by omega)

theorem Kind.Tallied.conserved {st : Store} {taken : (List (List Value) → Bool) → Nat} {k : Kind}
    (h : k.Tallied st taken) : k.Conserved st taken := by
  cases k with
  | histograms hs => exact fun i l hl => (h i l hl).conserved
  | planeHistogram l => exact fun hl => (h hl).conserved
  | _ => trivial

namespace Graph

open Workbench in
/-- After every call of every run, the counts of a histogram are those of the events in which its
gate was open and its coordinates were numbers, since the run began. -/
theorem counts_conserved (capacity : Nat) (strategy : FillStrategy) (calls : List BuildCall)
    (volume : Volume) (before since : List RunCall) (hsince : .beginRun ∉ since)
    (event place : Nat) (s : Slot) (n : Numbered RankedOperator) :
    let begun := (before.foldl RunCall.apply
      ((after capacity strategy calls).plan.build volume)).beginRun
    let g := since.foldl RunCall.apply begun
    g.slots[event]? = some s → s.operators[place]? = some n →
      n.node.operator.kind.Conserved g.arena.store fun test =>
        accepted event place test begun since := by
  intro begun g hs hn
  have hsound := sound_after capacity strategy calls
  have hbuild : ((after capacity strategy calls).plan.build volume).Quiet := by
    refine ⟨hsound.wired volume, fun s hs => ?_, queue_build _ volume,
      slots_after_lt capacity strategy calls⟩
    obtain ⟨e, he, rfl⟩ := List.mem_map.1 hs
    exact hsound.guarded he
  have hquiet : (before.foldl RunCall.apply
      ((after capacity strategy calls).plan.build volume)).Quiet :=
    hbuild.of_layout (layout_run _ before) (queue_run before hbuild.queue)
  have hbegun : begun.Quiet := hquiet.of_layout (layout_apply _ .beginRun)
    (queue_apply .beginRun hquiet.queue)
  have hrun := hquiet.tallied_beginRun.run hbegun hsince s n hs hn
  simp only [Nat.zero_add] at hrun
  exact hrun.conserved

/-- A histogram of four bins over an input that holds one. -/
def filledHistogram : List BuildCall :=
  let input : Pipe := ⟨⟨0, 1⟩, ⟨4, 1⟩, ⟨8, 1⟩⟩
  [.pushPipe 1 .zero .two, .assign input.data [.one], .makeOperator (.histograms input 4 none),
    .addOperator 0 0 none]

open Workbench in
theorem counts_conserved_filledHistogram :
    let begun := (([] : List RunCall).foldl RunCall.apply
      ((after 4096 .batched filledHistogram).plan.build .fresh)).beginRun
    let since := [RunCall.during (.beginEvent 0), .during (.endEvent 0), .during (.endEvent 0)]
    let g := since.foldl RunCall.apply begun
    .beginRun ∉ since ∧ accepted 0 0 (takesElement 0) begun since = 2 ∧
      ∃ s n, g.slots[0]? = some s ∧ s.operators[0]? = some n ∧
        n.node.operator.kind.Conserved g.arena.store fun test => accepted 0 0 test begun since := by
  intro begun since g
  have hsince : .beginRun ∉ since := by simp [since]
  have hs := List.getElem?_eq_getElem (show 0 < g.slots.length by decide +kernel)
  have hn := List.getElem?_eq_getElem (show 0 < g.slots[0].operators.length by decide +kernel)
  exact ⟨hsince, by decide +kernel, _, _, hs, hn, counts_conserved 4096 .batched filledHistogram
    .fresh [] since hsince 0 0 _ _ hs hn⟩

end Graph

end Readout
