import Readout.Proofs.Source.Storing

/-!
# Events of sources

A source gets into a state by being made and asked something any number of times, whatever else is
done to the store in between and whichever numbers its dither has come to (`Reaches`). From each of
these states the words of an event lead to the table that has taken their hits.
-/
namespace Readout

/-- The store has room for all that the arena has handed out. -/
structure Arena.Sized (a : Arena) : Prop where
  used_le : a.used ≤ a.capacity
  capacity_eq : a.capacity = a.store.slots * Arena.valueSize

theorem Arena.Sized.onward {a b : Arena} (h : a.Sized) (ho : a.Onward b) : b.Sized where
  used_le := ho.capacity_eq ▸ ho.fits h.used_le
  capacity_eq := by rw [ho.capacity_eq, ho.slots_eq, h.capacity_eq]

theorem Arena.sized_new (bytes : Nat) : (Arena.new bytes).Sized := ⟨Nat.zero_le _, rfl⟩

namespace SourceRecipe

def plain : SourceRecipe → Bool
  | group _ _ o => o.plain
  | packed _ _ _ o => o.plain
  | word _ _ _ o => o.plain

/-- The sources that a recipe leads to, each with the store that it then has. -/
inductive Reaches (r : SourceRecipe) : Source → Store → Prop
  | make {a b : Arena} {s : Source} : a.Sized → r.make a = (.ok s, b) → r.Reaches s b.store
  | call {s : Source} {st : Store} (c : SourceCall) : r.Reaches s st →
      r.Reaches (c.apply (s, st)).1 (c.apply (s, st)).2
  | write {s : Source} {st st' : Store} : r.Reaches s st → st'.slots = st.slots → r.Reaches s st'
  | draw {s : Source} {st : Store} (d : Dither) : r.Reaches s st →
      r.Reaches { s with dither := d } st

end SourceRecipe

namespace Source

theorem plain_make {d : Decoder} {count length dataBits : Nat} {o : SourceOptions} {a b : Arena}
    {s : Source} (h : make d count length dataBits o a = (.ok s, b)) : s.plain = o.plain := by
  rw [make] at h
  obtain ⟨outputs, a', -, h⟩ := exists_of_bind_apply_eq h
  obtain ⟨hitCounts, a'', -, h⟩ := exists_of_bind_apply_eq h
  obtain ⟨hs, -⟩ := Prod.mk.inj h
  rw [← Except.ok.inj hs]

end Source

theorem SourceRecipe.plain_make {r : SourceRecipe} {a b : Arena} {s : Source}
    (h : r.make a = (.ok s, b)) : s.plain = r.plain := by
  cases r with
  | group g required o =>
    rw [make, Source.ofGroup] at h
    split at h
    · cases h
    · obtain ⟨-, a', -, h⟩ := exists_of_bind_apply_eq h
      exact Source.plain_make h
  | packed p repetitions low o =>
    rw [make, Source.ofPacking] at h
    obtain ⟨-, a', -, h⟩ := exists_of_bind_apply_eq h
    exact Source.plain_make h
  | word p shape maxHits o =>
    rw [make, Source.ofPattern] at h
    split at h
    · cases h
    · obtain ⟨-, a', -, h⟩ := exists_of_bind_apply_eq h
      cases shape <;> exact Source.plain_make h

theorem SourceCall.slots_apply (c : SourceCall) (s : Source) (st : Store) :
    (c.apply (s, st)).2.slots = st.slots := by
  cases c with
  | beginRun => exact st.slots_fill _ _
  | beginEvent => exact s.slots_beginEvent st
  | feed words => exact s.slots_feed st words

theorem Source.Seated.apply {s : Source} {st : Store} (hs : s.Seated st.slots) (c : SourceCall) :
    (c.apply (s, st)).1.Seated (c.apply (s, st)).2.slots := by
  rw [c.slots_apply]
  exact hs.of_resting (Source.resting_apply s st c)

namespace SourceRecipe

variable {r : SourceRecipe} {s : Source} {st : Store}

theorem exists_make {a : Arena} (h : (r.make a).1.isOk = true) :
    ∃ s b, r.make a = (.ok s, b) := by
  rcases hmake : r.make a with ⟨e | s, b⟩
  · rw [hmake] at h
    cases h
  · exact ⟨s, b, rfl⟩

theorem seated_make (hr : r.Legal) {a b : Arena} (ha : a.Sized) (h : r.make a = (.ok s, b)) :
    s.Seated b.store.slots := by
  have htakes := r.takes_make
  have hwith := htakes.result a s (by rw [h])
  have hplaced := htakes.placed 0 [] a s (.nil (Nat.zero_le _)) (by rw [h])
  have hsized := ha.onward (htakes.onward a)
  rw [h, List.append_nil] at hplaced
  rw [h] at hsized
  have hfits : b.used ≤ b.store.slots * Arena.valueSize := hsized.capacity_eq ▸ hsized.used_le
  refine ⟨⟨hwith.made.shaped, fun p hp => ?_, hwith.decoder_eq ▸ hr.faithful⟩, hplaced.apart⟩
  have hwithin := Nat.le_trans (hplaced.within p hp).2 hfits
  exact Nat.le_of_mul_le_mul_right hwithin (by decide : 0 < Arena.valueSize)

/-- What a source has become differs from what was made in the traces of its run only. -/
theorem Reaches.exists_made (h : r.Reaches s st) (hr : r.Legal) : ∃ s₀ : Source,
    s.resting = s₀.resting ∧ s₀.MadeWith r.decoder ∧ s₀.plain = r.plain ∧ s₀.Seated st.slots := by
  induction h with
  | @make a b s ha hmake =>
    exact ⟨s, rfl, r.takes_make.result a s (by rw [hmake]), plain_make hmake,
      seated_make hr ha hmake⟩
  | @call s st c _ ih =>
    obtain ⟨s₀, hrest, hwith, hplain, hseated⟩ := ih
    refine ⟨s₀, (Source.resting_apply s st c).trans hrest, hwith, hplain, ?_⟩
    rw [c.slots_apply]
    exact hseated
  | write _ hslots ih => rwa [hslots]
  | draw d _ ih => exact ih

theorem Reaches.seated (h : r.Reaches s st) (hr : r.Legal) : s.Seated st.slots := by
  obtain ⟨s₀, hrest, -, -, hseated⟩ := h.exists_made hr
  exact hseated.of_resting hrest

theorem Reaches.blank_eq (h : r.Reaches s st) (hr : r.Legal) :
    s.decoder.blank = r.decoder.blank := by
  obtain ⟨s₀, hrest, hwith, -, -⟩ := h.exists_made hr
  rw [← hwith.decoder_eq]
  exact congrArg Source.decoder hrest

theorem Reaches.addressCount_eq (h : r.Reaches s st) (hr : r.Legal) :
    s.addressCount = r.decoder.addressCount :=
  Decoder.addressCount_of_blank (h.blank_eq hr)

theorem Reaches.plain_eq (h : r.Reaches s st) (hr : r.Legal) : s.plain = r.plain := by
  obtain ⟨s₀, hrest, -, hplain, -⟩ := h.exists_made hr
  rw [← hplain, Source.plain_of_resting hrest]

end SourceRecipe

namespace Decoder

/-- The hits of word lists, one after the other. -/
def decodeAll (d : Decoder) : List (List UInt32) → List Hit
  | [] => []
  | words :: feeds => (d.decode words).1 ++ (d.decode words).2.1.decodeAll feeds

theorem Faithful.decodeAll_lt {d : Decoder} (h : d.Faithful) (feeds : List (List UInt32)) :
    ∀ hit ∈ d.decodeAll feeds, hit.address < d.addressCount := by
  induction feeds generalizing d with
  | nil => exact fun _ hm => absurd hm List.not_mem_nil
  | cons words feeds ih =>
    intro hit hm
    have hblank := d.blank_decode words
    rcases List.mem_append.1 hm with hm | hm
    · exact h.address_lt words hit hm
    · rw [← addressCount_of_blank hblank]
      exact ih (h.of_blank hblank) hit hm

end Decoder

namespace Source

variable {s : Source} {st : Store} {t : HitTable}

/-- A whole event with word lists of the module of the source. -/
def event (s : Source) (st : Store) (feeds : List (List UInt32)) : Source × Store :=
  (feeds.map SourceCall.feed).foldl SourceCall.apply (s.beginEvent st)

theorem decoder_record (s : Source) (st : Store) (hit : Hit) :
    (s.record st hit).1.decoder = s.decoder := by
  rw [record]
  dsimp only
  split <;> rfl

theorem decoder_recordAll (s : Source) (st : Store) (hits : List Hit) :
    (s.recordAll st hits).1.decoder = s.decoder := by
  induction hits generalizing s st with
  | nil => rfl
  | cons hit hits ih => exact (ih _ _).trans (s.decoder_record st hit)

theorem decoder_feed (s : Source) (st : Store) (words : List UInt32) :
    (s.feed st words).1.decoder = (s.decoder.decode words).2.1 := decoder_recordAll _ st _

theorem Holds.feedAll (hs : s.Seated st.slots) (h : s.Holds st t) (feeds : List (List UInt32)) :
    let after := (feeds.map SourceCall.feed).foldl SourceCall.apply (s, st)
    after.1.Holds after.2 (t.recordAll s.rules (s.decoder.decodeAll feeds)) := by
  induction feeds generalizing s st t with
  | nil => exact h
  | cons words feeds ih =>
    have hr := s.resting_feed st words
    have hseated : (s.feed st words).1.Seated (s.feed st words).2.1.slots :=
      hs.apply (.feed words)
    have hrest := ih hseated (h.feed hs words)
    rw [rules_of_resting hr, decoder_feed] at hrest
    rw [Decoder.decodeAll, HitTable.recordAll_append]
    exact hrest

/-- The table that a source and its store keep. -/
def table (s : Source) (st : Store) : HitTable where
  element a k := st.get (s.place a k).1 (s.place a k).2
  count a := st.get s.hitCounts a
  dither := s.dither

theorem holds_table (s : Source) (st : Store) : s.Holds st (s.table st) :=
  ⟨rfl, fun _ _ _ _ => rfl, fun _ _ => rfl⟩

theorem resting_event (s : Source) (st : Store) (feeds : List (List UInt32)) :
    (s.event st feeds).1.resting = s.resting := by
  have hrun : ∀ (feeds : List (List UInt32)) (x : Source × Store),
      ((feeds.map SourceCall.feed).foldl SourceCall.apply x).1.resting = x.1.resting := by
    intro feeds
    induction feeds with
    | nil => exact fun _ => rfl
    | cons words feeds ih => exact fun x => (ih _).trans (x.1.resting_feed x.2 words)
  exact (hrun feeds _).trans (s.resting_beginEvent st)

theorem Holds.event (hs : s.Seated st.slots) (h : s.Holds st t) (feeds : List (List UInt32)) :
    (s.event st feeds).1.Holds (s.event st feeds).2
      (t.renew.recordAll s.rules (s.decoder.restart.decodeAll feeds)) := by
  have hseated : (s.beginEvent st).1.Seated (s.beginEvent st).2.slots := hs.apply .beginEvent
  have hfed := (h.beginEvent hs).feedAll hseated feeds
  rw [rules_of_resting (s.resting_beginEvent st)] at hfed
  exact hfed

theorem Seated.address_lt (hs : s.Seated st.slots) (feeds : List (List UInt32)) :
    ∀ hit ∈ s.decoder.restart.decodeAll feeds, hit.address < s.addressCount := by
  have hblank := s.decoder.blank_restart
  have hall := (hs.inRange.faithful.of_blank hblank).decodeAll_lt feeds
  rwa [Decoder.addressCount_of_blank hblank] at hall

/-- At the end of an event the elements of each address hold its first hits in their order, and
each hit that is stored has drawn once. -/
theorem event_eq (hs : s.Seated st.slots) (feeds : List (List UInt32)) :
    let hits := s.decoder.restart.decodeAll feeds
    let stored := kept (fun _ => s.decoder.depth) hits
    let after := s.event st feeds
    (∀ a < s.addressCount, ∀ k < s.decoder.depth, ∃ q, s.outputs[(s.cell a k).1]? = some q ∧
      (s.cell a k).2 < q.length ∧
      let x := after.2.get q.data (s.cell a k).2
      ((hitsOf a hits).length ≤ k → x = Value.invalid) ∧
      ∀ h, (hitsOf a hits)[k]? = some h → ∃ i, stored[i]? = some h ∧
        (hitsOf a (stored.take i)).length = k ∧
        x = (spread s.plain (ditherAfter s.plain s.dither i) h.value).1) ∧
    (∀ a < s.addressCount, after.2.get s.hitCounts a = Filler.raised
      (hitsOf a (if s.countsAll then hits else stored)).length (st.get s.hitCounts a)) ∧
    after.1.dither = ditherAfter s.plain s.dither stored.length := by
  intro hits stored after
  have hback : Holds { s with dither := after.1.dither } after.2
      ((s.table st).renew.recordAll s.rules hits) :=
    ((s.holds_table st).event hs feeds).of_resting (s.resting_event st feeds).symm rfl
  have hroom : (s.table st).renew.room s.rules = fun _ => s.decoder.depth :=
    HitTable.room_renew _ _
  refine ⟨fun a ha k hk => ?_, fun a ha => ?_, ?_⟩
  · obtain ⟨q, hq, hlt, hplace⟩ := hs.inRange.shaped.place_eq ha hk
    have hread : after.2.get (s.place a k).1 (s.place a k).2 = _ := hback.element_eq a ha k hk
    rw [hplace] at hread
    refine ⟨q, hq, hlt, ?_⟩
    dsimp only
    rw [hread]
    exact HitTable.element_renewed (s.table st) s.rules hits hk a
  · have hcount := hback.count_eq a ha
    rw [HitTable.count_recordAll, HitTable.counted, hroom] at hcount
    exact hcount
  · have hdither := hback.dither_eq
    rw [HitTable.dither_recordAll, hroom] at hdither
    exact hdither

end Source

end Readout
