import Readout.Proofs.Source.Feed

/-!
# Sources that start over

When an event begins, a decoder lets go of the words that it has taken but does not erase them, and
the outputs of a source become invalid. A word that is not taken is never looked at again. So what
a source without dither makes of an event does not depend on earlier events, not even on those
that left a match incomplete.
-/
namespace Readout

/-- A member without the word that it has let go. -/
def Member.current (m : Member) : Member := { m with word := if m.taken then m.word else 0 }

namespace Member

theorem current_of_taken {m : Member} (h : m.taken = true) : m.current = m := by
  rw [current, if_pos h]

theorem current_release (m : Member) : m.release.current = m.blank := rfl

theorem blank_current (m : Member) : m.current.blank = m.blank := rfl

end Member

namespace Group

def current (g : Group) : Group := ⟨g.members.map Member.current⟩

theorem current_offerTo (word : UInt32) (index : Int) (ms : List Member) :
    (offerTo word index ms).map Member.current = offerTo word index (ms.map Member.current) := by
  induction ms with
  | nil => rfl
  | cons m ms ih =>
    rw [List.map_cons, offerTo, offerTo]
    change _ = if (!m.taken && m.pattern.accepts word index) = true then _ else _
    split
    · rfl
    · rw [List.map_cons, ih]

theorem current_offer (g : Group) (word : UInt32) (index : Int) :
    (g.offer word index).current = g.current.offer word index :=
  congrArg mk (current_offerTo word index g.members)

theorem complete_current (g : Group) : g.current.complete = g.complete := by
  simp only [complete, current, List.all_map]
  rfl

theorem current_of_complete {g : Group} (h : g.complete = true) : g.current = g := by
  have hall : ∀ m ∈ g.members, m.taken = true := by simpa [complete] using h
  have hmap : g.members.map Member.current = g.members :=
    (List.map_congr_left fun m hm => Member.current_of_taken (hall m hm)).trans (List.map_id _)
  exact congrArg mk hmap

theorem current_release (g : Group) : g.release.current = g.blank := by
  simp only [current, release, blank, List.map_map]
  rfl

theorem blank_current (g : Group) : g.current.blank = g.blank := by
  simp only [current, blank, List.map_map]
  rfl

end Group

namespace GroupDecoder

def current (d : GroupDecoder) : GroupDecoder := { d with group := d.group.current }

/-- A word that was let go makes no difference for a step. -/
theorem step_current (d : GroupDecoder) (word : UInt32) (index : Nat) :
    (d.current.step word index).1 = (d.step word index).1 ∧
      (d.current.step word index).2.current = (d.step word index).2.current := by
  rw [step, step]
  simp only [current, ← Group.current_offer, Group.complete_current]
  cases hc : (d.group.offer word index).complete with
  | true =>
    simp only [Group.current_of_complete hc, and_self]
  | false =>
    refine ⟨rfl, congrArg (fun g => GroupDecoder.mk g d.required d.completed) ?_⟩
    change (d.group.offer word index).current.current = (d.group.offer word index).current
    simp only [Group.current, List.map_map]
    refine congrArg Group.mk (List.map_congr_left fun m _ => ?_)
    cases ht : m.taken <;> simp [Member.current, ht]

theorem decodeFrom_current {d e : GroupDecoder} (h : d.current = e.current) (index : Nat)
    (words : List UInt32) : (decodeFrom index words d).1 = (decodeFrom index words e).1 ∧
      (decodeFrom index words d).2.current = (decodeFrom index words e).2.current := by
  induction words generalizing index d e with
  | nil => exact ⟨rfl, h⟩
  | cons w words ih =>
    obtain ⟨hhit, hnext⟩ := d.step_current w index
    obtain ⟨hhit', hnext'⟩ := e.step_current w index
    rw [h] at hhit hnext
    obtain ⟨hhits, hend⟩ := ih (hnext.symm.trans hnext') (index + 1)
    refine ⟨?_, hend⟩
    simp only [decodeFrom]
    rw [hhits, ← hhit, hhit']

end GroupDecoder

namespace Decoder

/-- A decoder without the words that it has let go. -/
def current : Decoder → Decoder
  | group d => group d.current
  | d => d

theorem current_restart (d : Decoder) : d.restart.current = d.blank := by
  cases d with
  | group d => simp only [restart, GroupDecoder.restart, current, GroupDecoder.current, blank,
      GroupDecoder.blank, Group.current_release]
  | packed d => rfl
  | word d => rfl

theorem blank_current (d : Decoder) : d.current.blank = d.blank := by
  cases d with
  | group d => simp only [current, blank, GroupDecoder.current, GroupDecoder.blank,
      Group.blank_current]
  | packed d => rfl
  | word d => rfl

theorem decode_current {d e : Decoder} (h : d.current = e.current) (words : List UInt32) :
    (d.decode words).1 = (e.decode words).1 ∧
      (d.decode words).2.1.current = (e.decode words).2.1.current := by
  cases d with
  | group d =>
    cases e with
    | group e =>
      obtain ⟨hhits, hend⟩ := GroupDecoder.decodeFrom_current (Decoder.group.inj h) 0 words
      exact ⟨hhits, congrArg group hend⟩
    | _ => cases h
  | packed d =>
    cases e with
    | packed e =>
      cases h
      exact ⟨rfl, rfl⟩
    | _ => cases h
  | word d =>
    cases e with
    | word e =>
      cases h
      exact ⟨rfl, rfl⟩
    | _ => cases h

end Decoder

namespace Source

variable {P : Nat → Prop} {s t : Store} {src src' : Source}

/-- A source without the words that it has let go. -/
def current (src : Source) : Source :=
  { src with decoder := src.decoder.current, dither := default }

theorem resting_current (src : Source) : src.current.resting = src.resting := by
  simp only [current, resting, Decoder.blank_current]

theorem resting_of_current (h : src.current = src'.current) : src.resting = src'.resting := by
  rw [← resting_current, h, resting_current]

theorem places_resting (src : Source) (address : Nat) :
    src.resting.places address = src.places address := by
  obtain ⟨outputs, hitCounts, moduleIndex, decoder, dither, plain⟩ := src
  cases decoder <;> rfl

theorem countsAll_resting (src : Source) : src.resting.countsAll = src.countsAll := by
  obtain ⟨outputs, hitCounts, moduleIndex, decoder, dither, plain⟩ := src
  cases decoder <;> rfl

/-- A hit leaves a source without dither as it is. -/
theorem record_plain (hplain : src.plain = true) (s : Store) (hit : Hit) :
    (src.record s hit).1 = src := by
  obtain ⟨outputs, hitCounts, moduleIndex, decoder, dither, plain⟩ := src
  obtain rfl : plain = true := hplain
  rw [record]
  dsimp only
  split <;> rfl

theorem recordAll_plain (hplain : src.plain = true) (s : Store) (hits : List Hit) :
    (src.recordAll s hits).1 = src := by
  induction hits generalizing s with
  | nil => rfl
  | cons hit hits ih => rw [recordAll_cons, record_plain hplain, ih]

/-- Sources without dither that differ in their decoders only keep a hit alike. -/
theorem record_of_resting (hr : src.resting = src'.resting) (hplain : src.plain = true)
    (s : Store) (hit : Hit) : (src'.record s hit).2 = (src.record s hit).2 := by
  have hplaces : src'.places hit.address = src.places hit.address := by
    rw [← places_resting, ← hr, places_resting]
  have hcounts : src'.countsAll = src.countsAll := by
    rw [← countsAll_resting, ← hr, countsAll_resting]
  have hspan : src'.hitCounts = src.hitCounts := (congrArg hitCounts hr).symm
  have hplain' : src'.plain = src.plain := (congrArg plain hr).symm
  rw [record, record, hplaces, hcounts, hspan]
  dsimp only
  split
  · rfl
  · simp only [spread, hplain', hplain, if_true]

theorem agree_recordAll_of_resting (hr : src.resting = src'.resting) (hplain : src.plain = true)
    (h : s.AgreeOn P t) (hits : List Hit) (hp : src.SeenIn P hits) :
    (src.recordAll s hits).2.AgreeOn P (src'.recordAll t hits).2 := by
  have hsame : ∀ (hits : List Hit) (t : Store),
      (src'.recordAll t hits).2 = (src.recordAll t hits).2 := by
    have hplain' : src'.plain = true := (congrArg plain hr).symm.trans hplain
    intro hits
    induction hits with
    | nil => exact fun _ => rfl
    | cons hit hits ih =>
      intro t
      rw [recordAll_cons, recordAll_cons, record_plain hplain, record_plain hplain',
        record_of_resting hr hplain, ih]
  rw [hsame]
  exact (src.agree_recordAll h hits hp).2

/-- What a source without dither makes of words, it makes whatever it has let go before. -/
theorem feed_current (hc : src.current = src'.current) (hplain : src.plain = true)
    (h : s.AgreeOn P t) (words : List UInt32)
    (hp : SeenIn { src with decoder := (src.decoder.decode words).2.1 } P
      (src.decoder.decode words).1) :
    (src.feed s words).1.current = (src'.feed t words).1.current ∧
      (src.feed s words).2.1.AgreeOn P (src'.feed t words).2.1 := by
  obtain ⟨hhits, hnext⟩ := Decoder.decode_current (congrArg decoder hc) words
  have hfed : current { src with decoder := (src.decoder.decode words).2.1 } =
      current { src' with decoder := (src'.decoder.decode words).2.1 } := by
    simp only [current, mk.injEq] at hc ⊢
    exact ⟨hc.1, hc.2.1, hc.2.2.1, hnext, trivial, hc.2.2.2.2.2⟩
  have hplain' : src'.plain = true := (congrArg plain hc).symm.trans hplain
  rw [feed, feed]
  simp only [← hhits]
  refine ⟨?_, agree_recordAll_of_resting (resting_of_current hfed) hplain h _ hp⟩
  rw [recordAll_plain (by exact hplain), recordAll_plain (by exact hplain')]
  exact hfed

theorem current_beginEvent (hr : src.resting = src'.resting) (s t : Store) :
    (src.beginEvent s).1.current = (src'.beginEvent t).1.current := by
  simp only [beginEvent, current, Decoder.current_restart]
  exact hr

/-- When an event begins, it does not matter what the outputs held. -/
theorem beginEvent_renews (hout : src.outputs = src'.outputs)
    (hfit : ∀ p ∈ src.outputs, p.data.stop ≤ s.slots) (h : s.AgreeOn P t) :
    (src.beginEvent s).2.AgreeOn (fun i => P i ∨ ∃ p ∈ src.outputs, i ∈ p.data)
      (src'.beginEvent t).2 := by
  rw [beginEvent_store, beginEvent_store, ← hout]
  refine (h.fillAll_covers (List.forall_mem_map.2 hfit)).mono fun i hi => ?_
  simpa only [List.mem_map, exists_exists_and_eq_and] using hi

end Source

end Readout
