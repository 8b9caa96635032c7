import Mathlib.Data.List.Induction
import Readout.Proofs.Source.Completions
import Readout.Proofs.Value.Doubles

/-!
# Counted events

With one element for each address, a hit is counted when it finds the element without a value, and
the value then stays until the next event. So at any moment of a run the counter of an address is
the number of events in which its element has become valid (`hitCounts_eq`).
-/
namespace Readout

/-- One hit is stored for each address, and no other one is counted. -/
structure HitRules.Single (r : HitRules) : Prop where
  depth_eq : r.depth = 1
  countsAll_eq : r.countsAll = false

namespace HitTable

variable {r : HitRules} {t : HitTable} {a n : Nat}

/-- So many events are counted under the address, and one more if its element is valid. -/
def Tallied (t : HitTable) (a n : Nat) : Prop :=
  t.count a = Value.ofNat (n + (t.element a 0).isValid.toNat)

theorem Tallied.record (h : t.Tallied a n) (hr : r.Single) (hn : n + 1 < 2 ^ 53) (hit : Hit) :
    (t.record r hit).Tallied a n := by
  cases hf : t.free r hit.address with
  | nil =>
    rw [record_full hf, hr.countsAll_eq]
    exact h
  | cons k ks =>
    have hk := mem_free.1 (hf ▸ List.mem_cons_self : k ∈ t.free r hit.address)
    obtain rfl : k = 0 := by
      have hlt := hk.1
      rw [hr.depth_eq] at hlt
      omega
    by_cases ha : a = hit.address
    · subst ha
      have hvalid := isValid_spread r.plain t.dither hit.value
      have hcount : (t.record r hit).count hit.address = t.count hit.address + Value.one := by
        rw [record_first hf]
        exact count_tally_self t _
      rw [Tallied, hk.2] at h
      rw [Tallied, element_record_self hf, hvalid, hcount, h]
      exact Value.ofNat_succ hn
    · have hcount : (t.record r hit).count a = t.count a := by
        rw [record_first hf]
        exact count_tally_of_ne t ha
      rw [Tallied, element_record_of_ne hf (.inl ha), hcount]
      exact h

theorem Tallied.recordAll (h : t.Tallied a n) (hr : r.Single) (hn : n + 1 < 2 ^ 53)
    (hits : List Hit) : (t.recordAll r hits).Tallied a n := by
  induction hits generalizing t with
  | nil => exact h
  | cons hit hits ih => exact ih (h.record hr hn hit)

theorem isValid_recordAll (h : (t.element a 0).isValid = true) (hits : List Hit) :
    ((t.recordAll r hits).element a 0).isValid = true := by
  have hfree : 0 ∉ t.free r a := by simp [mem_free, h]
  rw [element_recordAll_of_not_free hfree, h]

end HitTable

/-- What happens while an event lasts: words of the source's module, or writes of others. -/
inductive EventStep
  | feed (words : List UInt32)
  | others (f : Store → Store)

def EventStep.apply : Source × Store → EventStep → Source × Store
  | (s, st), feed words => SourceCall.apply (s, st) (.feed words)
  | (s, st), others f => (s, f st)

namespace Source

/-- The steps of an event, after its begin. -/
def stepEvent (x : Source × Store) (steps : List EventStep) : Source × Store :=
  steps.foldl EventStep.apply (SourceCall.apply x .beginEvent)

/-- A write that leaves alone what the source writes. -/
def SparedBy (s : Source) (f : Store → Store) : Prop :=
  ∀ st : Store, st.AgreeOn (fun i => ∃ p ∈ s.written, i ∈ p) (f st)

def Undisturbed (s : Source) (steps : List EventStep) : Prop :=
  ∀ f, EventStep.others f ∈ steps → s.SparedBy f

variable {s s' : Source} {st st' : Store} {f : Store → Store} {t : HitTable} {a n : Nat}

theorem SparedBy.of_resting (h : s.SparedBy f) (hr : s'.resting = s.resting) : s'.SparedBy f := by
  have hwritten : s'.written = s.written := by
    simpa only [resting, written] using congrArg written hr
  rwa [SparedBy, hwritten]

theorem Holds.spared (h : s.Holds st t) (hs : s.Seated st.slots) (hf : s.SparedBy f) :
    s.Holds (f st) t := by
  refine ⟨h.dither_eq, fun a ha k hk => ?_, fun a ha => ?_⟩
  · obtain ⟨p, hp, hlt, hplace⟩ := hs.inRange.shaped.place_eq ha hk
    have hmem : p.data ∈ s.written :=
      List.mem_append_left _ (List.mem_map_of_mem (List.mem_of_getElem? hp))
    have hin : p.data.offset + (s.cell a k).2 ∈ p.data :=
      ⟨Nat.le_add_right _ _, Nat.add_lt_add_left hlt _⟩
    rw [← h.element_eq a ha k hk, hplace]
    exact ((hf st).get_eq ⟨p.data, hmem, hin⟩).symm
  · have hlength := hs.inRange.shaped.counts
    have hin : s.hitCounts.offset + a ∈ s.hitCounts := ⟨by omega, by omega⟩
    rw [← h.count_eq a ha]
    exact ((hf st).get_eq ⟨s.hitCounts, by simp [written], hin⟩).symm

/-- While an event lasts, the table takes hits and nothing else happens to it. -/
theorem Holds.steps (h : s.Holds st t) (hs : s.Seated st.slots) {steps : List EventStep}
    (hothers : s.Undisturbed steps) : ∃ hits,
      let x := steps.foldl EventStep.apply (s, st)
      x.1.resting = s.resting ∧ x.2.slots = st.slots ∧
        x.1.Holds x.2 (t.recordAll s.rules hits) := by
  induction steps generalizing s st t with
  | nil => exact ⟨[], rfl, rfl, h⟩
  | cons c steps ih =>
    have hrest : s.Undisturbed steps := fun f hf => hothers f (List.mem_cons_of_mem c hf)
    cases c with
    | feed words =>
      have hr := s.resting_feed st words
      have hslots := s.slots_feed st words
      have hseated : (s.feed st words).1.Seated (s.feed st words).2.1.slots :=
        hs.apply (.feed words)
      obtain ⟨hits, hx, hsize, htable⟩ := ih (h.feed hs words) hseated fun f hf =>
        (hrest f hf).of_resting hr
      refine ⟨(s.decoder.decode words).1 ++ hits, hx.trans hr, hsize.trans hslots, ?_⟩
      rw [rules_of_resting hr] at htable
      rw [HitTable.recordAll_append]
      exact htable
    | others f =>
      have hf := hothers f List.mem_cons_self
      have hslots := (hf st).slots_eq.symm
      obtain ⟨hits, hx, hsize, htable⟩ := ih (h.spared hs hf) (hslots ▸ hs) hrest
      exact ⟨hits, hx, hsize.trans hslots, htable⟩

theorem Holds.stepEvent (h : s.Holds st t) (hs : s.Seated st.slots) {steps : List EventStep}
    (hothers : s.Undisturbed steps) : ∃ hits,
      let x := stepEvent (s, st) steps
      x.1.resting = s.resting ∧ x.2.slots = st.slots ∧
        x.1.Holds x.2 (t.renew.recordAll s.rules hits) := by
  have hr := s.resting_beginEvent st
  obtain ⟨hits, hx, hsize, htable⟩ := (h.beginEvent hs).steps (hs.apply .beginEvent) fun f hf =>
    (hothers f hf).of_resting hr
  rw [rules_of_resting hr] at htable
  exact ⟨hits, hx.trans hr, hsize.trans (s.slots_beginEvent st), htable⟩

theorem Holds.reads (h : s'.Holds st' t) (hx : s'.resting = s.resting) (hr : s.rules.Single)
    (ha : a < s.addressCount) : st'.get (s.place a 0).1 (s.place a 0).2 = t.element a 0 ∧
      st'.get s.hitCounts a = t.count a := by
  have ha' : a < s'.decoder.addressCount := (addressCount_of_resting hx).symm ▸ ha
  have hdepth : s'.decoder.depth = 1 := hr.depth_eq ▸ congrArg HitRules.depth (rules_of_resting hx)
  have hcounts : s'.hitCounts = s.hitCounts := by simpa only [resting] using congrArg hitCounts hx
  have helement := h.element_eq a ha' 0 (hdepth ▸ Nat.zero_lt_one)
  have hcount := h.count_eq a ha'
  rw [place_of_resting hx] at helement
  rw [hcounts] at hcount
  exact ⟨helement, hcount⟩

/-- The element of an address, read where the source keeps one hit of it. -/
def elementOf (s : Source) (a : Nat) (st : Store) : Value := st.get (s.place a 0).1 (s.place a 0).2

/-- A state of the source after calls and writes of others. -/
structure Follows (s : Source) (x : Source × Store) : Prop where
  resting_eq : x.1.resting = s.resting
  seated : x.1.Seated x.2.slots

theorem countP_range_le (p : Nat → Bool) (m : Nat) : (List.range m).countP p ≤ m :=
  List.countP_le_length.trans_eq List.length_range

section Follows

variable {x : Source × Store} {steps : List EventStep}

theorem Follows.undisturbed (h : s.Follows x) (hothers : s.Undisturbed steps) :
    x.1.Undisturbed steps := fun f hf => (hothers f hf).of_resting h.resting_eq

theorem Follows.stepEvent (h : s.Follows x) (hothers : s.Undisturbed steps) :
    s.Follows (stepEvent x steps) := by
  obtain ⟨hits, hrest, hsize, -⟩ :=
    (x.1.holds_table x.2).stepEvent h.seated (h.undisturbed hothers)
  refine ⟨hrest.trans h.resting_eq, ?_⟩
  rw [hsize]
  exact h.seated.of_resting hrest

theorem Follows.run (h : s.Follows x) {events : List (List EventStep)}
    (hothers : ∀ steps ∈ events, s.Undisturbed steps) :
    s.Follows (events.foldl Source.stepEvent x) := by
  induction events generalizing x with
  | nil => exact h
  | cons steps events ih =>
    obtain ⟨hsteps, hevents⟩ := List.forall_mem_cons.1 hothers
    exact ih (h.stepEvent hsteps) hevents

variable (h : s.Follows x) (hr : s.rules.Single) (ha : a < s.addressCount)
include h hr ha

theorem Follows.isValid_begin : (s.elementOf a (Source.stepEvent x []).2).isValid = false := by
  have hbegin := (x.1.holds_table x.2).beginEvent h.seated
  obtain ⟨helement, -⟩ := hbegin.reads ((x.1.resting_beginEvent x.2).trans h.resting_eq) hr ha
  exact (congrArg Value.isValid helement).trans (by decide : Value.invalid.isValid = false)

theorem Follows.isValid_append {later : List EventStep} (hothers : s.Undisturbed (steps ++ later))
    (hvalid : (s.elementOf a (Source.stepEvent x steps).2).isValid = true) :
    (s.elementOf a (Source.stepEvent x (steps ++ later)).2).isValid = true := by
  have hy := h.stepEvent fun f hf => hothers f (List.mem_append_left later hf)
  have hlater := hy.undisturbed fun f hf => hothers f (List.mem_append_right steps hf)
  rw [Source.stepEvent, List.foldl_append, ← Source.stepEvent]
  generalize Source.stepEvent x steps = y at *
  have htable := y.1.holds_table y.2
  obtain ⟨hits, hrest, -, hafter⟩ := htable.steps hy.seated hlater
  obtain ⟨helement, -⟩ := htable.reads hy.resting_eq hr ha
  obtain ⟨hlast, -⟩ := hafter.reads (hrest.trans hy.resting_eq) hr ha
  rw [elementOf, helement] at hvalid
  rw [elementOf, hlast]
  exact HitTable.isValid_recordAll hvalid hits

/-- At any moment of an event its hits have been counted once or not at all. -/
theorem Follows.count_stepEvent (hothers : s.Undisturbed steps) (hn : n + 1 < 2 ^ 53)
    (hcount : x.2.get s.hitCounts a = Value.ofNat n) :
    let y := Source.stepEvent x steps
    y.2.get s.hitCounts a = Value.ofNat (n + (s.elementOf a y.2).isValid.toNat) := by
  intro y
  have htable := x.1.holds_table x.2
  obtain ⟨hits, hrest, -, hafter⟩ := htable.stepEvent h.seated (h.undisturbed hothers)
  obtain ⟨-, hbefore⟩ := htable.reads h.resting_eq hr ha
  obtain ⟨helement, hlast⟩ := hafter.reads (hrest.trans h.resting_eq) hr ha
  have hnew : (x.1.table x.2).renew.Tallied a n := by
    have hempty : Value.invalid.isValid = false := by decide
    simp [HitTable.Tallied, HitTable.renew, hempty, ← hbefore, hcount]
  have hsingle : x.1.rules.Single := (rules_of_resting h.resting_eq).symm ▸ hr
  rw [elementOf, helement, hlast]
  exact hnew.recordAll hsingle hn hits

theorem Follows.count_run {events : List (List EventStep)}
    (hothers : ∀ steps ∈ events, s.Undisturbed steps) (hlt : events.length < 2 ^ 53)
    (hzero : x.2.get s.hitCounts a = Value.zero) :
    (events.foldl Source.stepEvent x).2.get s.hitCounts a =
      Value.ofNat ((List.range events.length).countP fun i =>
        (s.elementOf a ((events.take (i + 1)).foldl Source.stepEvent x).2).isValid) := by
  induction events using List.reverseRecOn with
  | nil => exact hzero
  | append_singleton events steps ih =>
    obtain ⟨hevents, hsteps⟩ := List.forall_mem_append.1 hothers
    rw [List.length_append, List.length_singleton] at hlt
    have hbefore := ih hevents (by omega)
    have hle := countP_range_le (fun i =>
      (s.elementOf a ((events.take (i + 1)).foldl Source.stepEvent x).2).isValid) events.length
    have hcount := (h.run hevents).count_stepEvent hr ha (hsteps steps (by simp)) (by omega) hbefore
    have hearlier : (List.range events.length).countP (fun i =>
        (s.elementOf a (((events ++ [steps]).take (i + 1)).foldl Source.stepEvent x).2).isValid) =
          (List.range events.length).countP fun i =>
            (s.elementOf a ((events.take (i + 1)).foldl Source.stepEvent x).2).isValid := by
      refine List.countP_congr fun i hi => ?_
      rw [List.take_append_of_le_length (List.mem_range.1 hi)]
    have hall : (events ++ [steps]).take (events.length + 1) = events ++ [steps] := by simp
    have hbit : ∀ b : Bool, (if b = true then 1 else 0) = b.toNat := by decide
    rw [List.length_append, List.length_singleton, List.range_succ, List.countP_append, hearlier,
      List.countP_singleton, hall, List.foldl_append, hbit]
    exact hcount

end Follows

theorem single_of_reaches {r : SourceRecipe} (hr : r.Legal)
    (hone : ∀ p shape maxHits o, r ≠ .word p shape maxHits o) (h : r.Reaches s st) :
    s.rules.Single ∧ (∀ a, s.cell a 0 = (0, a)) ∧
      ∃ q, s.outputs = [q] ∧ q.length = s.addressCount := by
  have hblank := h.blank_eq hr
  have harranged := (h.seated hr).inRange.shaped.arranged
  rw [addressCount]
  cases hd : s.decoder with
  | word d =>
    rw [hd] at hblank
    cases r with
    | word p shape maxHits o => exact absurd rfl (hone p shape maxHits o)
    | _ => cases hblank
  | _ =>
    rw [hd] at harranged
    exact ⟨⟨by simp [rules, hd, Decoder.depth], by simp [rules, countsAll, hd]⟩,
      fun a => by simp [cell, hd, Decoder.across], harranged⟩

/-- A source with one output counts, for each address, the events in which the element of the
address has become valid: it is invalid when an event begins, stays valid once it is, and the
counter has grown by one then, however many hits there are. -/
theorem hitCounts_eq {r : SourceRecipe} (hr : r.Legal)
    (hone : ∀ p shape maxHits o, r ≠ .word p shape maxHits o) (h : r.Reaches s st)
    {before : Store → Store} (hbefore : s.SparedBy before) {events : List (List EventStep)}
    (hothers : ∀ steps ∈ events, s.Undisturbed steps) (hlt : events.length < 2 ^ 53) :
    ∃ q, s.outputs = [q] ∧ q.length = s.addressCount ∧ ∀ a < s.addressCount,
      let after := fun es : List (List EventStep) =>
        (es.foldl stepEvent (s, before (s.beginRun st))).2
      let valid := fun es => ((after es).get q.data a).isValid
      let count := fun es => (after es).get s.hitCounts a
      count events = Value.ofNat
        ((List.range events.length).countP fun i => valid (events.take (i + 1))) ∧
      ∀ es steps rest, events = es ++ steps :: rest →
        valid (es ++ [[]]) = false ∧
        (∀ first later, steps = first ++ later →
          valid (es ++ [first]) = true → valid (es ++ [steps]) = true) ∧
        count (es ++ [steps]) =
          if valid (es ++ [steps]) then count es + Value.one else count es := by
  obtain ⟨hsingle, hcell, q, houtputs, hlength⟩ := single_of_reaches hr hone h
  refine ⟨q, houtputs, hlength, fun a ha => ?_⟩
  intro after valid count
  have hseated := h.seated hr
  have hrun := hseated.apply .beginRun
  have hstart : s.Follows (s, before (s.beginRun st)) := by
    refine ⟨rfl, ?_⟩
    rw [← (hbefore (s.beginRun st)).slots_eq]
    exact hrun
  have hzero : (before (s.beginRun st)).get s.hitCounts a = Value.zero :=
    ((((s.holds_table st).beginRun hseated).spared hrun hbefore).reads rfl hsingle ha).2
  have hvalid : ∀ es, valid es = (s.elementOf a (after es)).isValid := by
    intro es
    simp [valid, elementOf, place, hcell, houtputs]
  simp only [hvalid]
  refine ⟨hstart.count_run hsingle ha hothers hlt hzero, fun es steps rest hsplit => ?_⟩
  rw [hsplit] at hothers hlt
  obtain ⟨hes, hsteps, -⟩ : (∀ e ∈ es, s.Undisturbed e) ∧ s.Undisturbed steps ∧
      ∀ e ∈ rest, s.Undisturbed e := by
    simpa [or_imp, forall_and] using hothers
  rw [List.length_append, List.length_cons] at hlt
  have hbegun := hstart.run hes
  have hcount := hstart.count_run hsingle ha hes (by omega) hzero
  have hsnoc : ∀ e, after (es ++ [e]) = (stepEvent (es.foldl stepEvent
      (s, before (s.beginRun st))) e).2 := by
    intro e
    simp [after]
  simp only [count, hsnoc]
  refine ⟨hbegun.isValid_begin hsingle ha, ?_, ?_⟩
  · rintro first later rfl
    exact hbegun.isValid_append hsingle ha hsteps
  · have hle := countP_range_le (fun i =>
      (s.elementOf a ((es.take (i + 1)).foldl stepEvent (s, before (s.beginRun st))).2).isValid)
      es.length
    have hnext := hbegun.count_stepEvent hsingle ha hsteps (by omega) hcount
    rw [hnext]
    split
    · next hnow =>
      rw [hnow, hcount]
      exact (Value.ofNat_succ (by omega)).symm
    · next hnow =>
      rw [Bool.not_eq_true] at hnow
      rw [hnow, hcount]
      rfl

/-- An address is hit twice in the first event, not at all in the second and once in the third,
while others write. -/
theorem hitCounts_eq_marked :
    let g : Group := ⟨[.ofPattern (marked .zero), .ofPattern (marked .one)]⟩
    let r := SourceRecipe.group g 1 ⟨0, 0, false⟩
    let others := fun st : Store => st.write 100 Value.one
    let events := [[.feed [2, 0], .others others, .feed [5, 2, 5]], [.feed [7]], [.feed [2, 5]]]
    r.Legal ∧ (∀ p shape maxHits o, r ≠ .word p shape maxHits o) ∧ ∃ s st, r.Reaches s st ∧
      s.SparedBy others ∧ (∀ steps ∈ events, s.Undisturbed steps) ∧ events.length < 2 ^ 53 ∧
      ∃ q, s.outputs = [q] ∧
        let after := fun es : List (List EventStep) =>
          (es.foldl stepEvent (s, others (s.beginRun st))).2
        (after events).get s.hitCounts 1 = Value.ofNat ((List.range events.length).countP fun i =>
          ((after (events.take (i + 1))).get q.data 1).isValid) ∧
        (after events).get s.hitCounts 1 = Value.ofNat 2 := by
  intro g r others events
  have hadd : [marked .zero, marked .one].foldlM Group.add Group.empty = .ok g := rfl
  have hg : g.Built := Group.Built.empty.ofPatterns hadd
  obtain ⟨s, b, hmake⟩ : ∃ s b, r.make (Arena.new 1024) = (.ok s, b) :=
    SourceRecipe.exists_make (by decide +kernel)
  have hreach : r.Reaches s b.store := .make (Arena.sized_new 1024) hmake
  have hcount : ∀ s' ∈ (r.make (Arena.new 1024)).1.toOption,
      s'.written = [⟨0, 4⟩, ⟨12, 4⟩] ∧
        (events.foldl stepEvent (s', others (s'.beginRun (r.make (Arena.new 1024)).2.store))).2.get
          s'.hitCounts 1 = Value.ofNat 2 := by decide +kernel
  rw [hmake] at hcount
  obtain ⟨hwritten, hcount⟩ := hcount s rfl
  have hspared : s.SparedBy others := by
    intro st
    refine ⟨(st.slots_write 100 _).symm, ?_⟩
    rintro i ⟨p, hp, hi⟩
    refine (st.read_write_of_ne _ ?_).symm
    rw [hwritten] at hp
    rw [Span.mem_iff] at hi
    simp only [List.mem_cons, List.not_mem_nil, or_false] at hp
    rcases hp with rfl | rfl <;> simp only at hi <;> omega
  have hothers : ∀ steps ∈ events, s.Undisturbed steps := by
    intro steps hsteps f hf
    have hf : f = others := by
      simp only [events, List.mem_cons, List.not_mem_nil, or_false] at hsteps
      rcases hsteps with rfl | rfl | rfl
      · simpa using hf
      all_goals simp at hf
    exact hf ▸ hspared
  have haddress : s.addressCount = 4 := (hreach.addressCount_eq hg).trans (by decide +kernel)
  have hgroup : ∀ p shape maxHits o, r ≠ .word p shape maxHits o := by
    intro p shape maxHits o h
    exact SourceRecipe.noConfusion h
  obtain ⟨q, hq, -, hall⟩ := hitCounts_eq (r := r) hg hgroup hreach hspared hothers (by decide)
  obtain ⟨htallied, -⟩ := hall 1 (by omega)
  exact ⟨hg, hgroup, s, b.store, hreach, hspared, hothers, by decide, q, hq, htallied, hcount⟩

end Source

end Readout
