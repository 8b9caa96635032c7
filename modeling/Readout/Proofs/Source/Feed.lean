import Readout.Proofs.Source.Layout

/-!
# Feeding sources

Words change what a source keeps of them, its dither and the contents of its spans, and nothing
else. What it makes of them depends on what its store reads and on nothing else about the store.
-/
namespace Readout

/-- A member that has taken no word yet. -/
def Member.blank (m : Member) : Member := { m with word := 0, taken := false }

namespace Group

def blank (g : Group) : Group := ⟨g.members.map Member.blank⟩

theorem blank_offerTo (word : UInt32) (index : Int) (ms : List Member) :
    (offerTo word index ms).map Member.blank = ms.map Member.blank := by
  induction ms with
  | nil => rfl
  | cons m ms ih =>
    rw [offerTo]
    split
    · rfl
    · rw [List.map_cons, List.map_cons, ih]

theorem blank_offer (g : Group) (word : UInt32) (index : Int) :
    (g.offer word index).blank = g.blank := congrArg mk (blank_offerTo word index g.members)

theorem blank_release (g : Group) : g.release.blank = g.blank := by
  simp only [blank, release, List.map_map]
  rfl

end Group

namespace GroupDecoder

def blank (d : GroupDecoder) : GroupDecoder := ⟨d.group.blank, d.required, 0⟩

theorem blank_step (d : GroupDecoder) (word : UInt32) (index : Nat) :
    (d.step word index).2.blank = d.blank := by
  rw [step]
  split
  · simp only [blank, Group.blank_offer]
  · split <;> simp only [blank, Group.blank_release, Group.blank_offer]

theorem blank_decodeFrom (index : Nat) (words : List UInt32) (d : GroupDecoder) :
    (decodeFrom index words d).2.blank = d.blank := by
  induction words generalizing index d with
  | nil => rfl
  | cons w words ih => exact (ih _ _).trans (d.blank_step w index)

end GroupDecoder

namespace Decoder

/-- A decoder that has seen no word yet. -/
def blank : Decoder → Decoder
  | group d => group d.blank
  | d => d

theorem blank_decode (d : Decoder) (words : List UInt32) :
    (d.decode words).2.1.blank = d.blank := by
  cases d with
  | group d => exact congrArg group (d.blank_decodeFrom 0 words)
  | packed d => rfl
  | word d => rfl

theorem blank_restart (d : Decoder) : d.restart.blank = d.blank := by
  cases d with
  | group d => simp only [restart, GroupDecoder.restart, blank, GroupDecoder.blank,
      Group.blank_release]
  | packed d => rfl
  | word d => rfl

end Decoder

namespace Source

/-- A source without the traces of a run. -/
def resting (s : Source) : Source := { s with decoder := s.decoder.blank, dither := default }

theorem resting_record (s : Source) (store : Store) (h : Hit) :
    (s.record store h).1.resting = s.resting := by
  rw [record]
  dsimp only
  split <;> rfl

theorem resting_recordAll (s : Source) (store : Store) (hs : List Hit) :
    (s.recordAll store hs).1.resting = s.resting := by
  induction hs generalizing s store with
  | nil => rfl
  | cons h hs ih => exact (ih _ _).trans (s.resting_record store h)

theorem resting_feed (s : Source) (store : Store) (words : List UInt32) :
    (s.feed store words).1.resting = s.resting := by
  have hd : resting { s with decoder := (s.decoder.decode words).2.1 } = s.resting := by
    simp only [resting, Decoder.blank_decode]
  exact (resting_recordAll _ store _).trans hd

theorem resting_beginEvent (s : Source) (store : Store) :
    (s.beginEvent store).1.resting = s.resting := by
  simp only [beginEvent, resting, Decoder.blank_restart]

theorem mem_places {src : Source} {address : Nat} {place : Span × Nat}
    (h : place ∈ src.places address) : ∃ p ∈ src.outputs, place.1 = p.data := by
  have hmap : ∀ i, place ∈ src.outputs.map (fun p => (p.data, i)) →
      ∃ p ∈ src.outputs, place.1 = p.data := by
    intro i h
    obtain ⟨p, hp, rfl⟩ := List.mem_map.1 h
    exact ⟨p, hp, rfl⟩
  rw [places] at h
  split at h
  · split at h
    · exact hmap _ h
    · split at h
      · next p hp =>
        obtain ⟨i, -, rfl⟩ := List.mem_map.1 h
        exact ⟨p, List.mem_of_getElem? hp, rfl⟩
      · cases h
  · exact hmap _ h

theorem places_record (src : Source) (s : Store) (hit : Hit) (address : Nat) :
    (src.record s hit).1.places address = src.places address := by
  rw [record]
  dsimp only
  split <;> rfl

theorem recordAll_cons (src : Source) (s : Store) (hit : Hit) (hits : List Hit) :
    src.recordAll s (hit :: hits) = (src.record s hit).1.recordAll (src.record s hit).2 hits := rfl

/-- A set of slots with all elements that hits may be kept in. -/
def SeenIn (src : Source) (P : Nat → Prop) (hits : List Hit) : Prop :=
  ∀ hit ∈ hits, ∀ q ∈ src.places hit.address, P (q.1.offset + q.2)

/-- A set of slots with nothing that the source writes. -/
def Spares (src : Source) (P : Nat → Prop) : Prop := ∀ p ∈ src.written, ∀ i ∈ p, ¬ P i

variable {P : Nat → Prop} {s t : Store}

theorem agree_record (src : Source) (h : s.AgreeOn P t) (hit : Hit)
    (hp : ∀ q ∈ src.places hit.address, P (q.1.offset + q.2)) :
    (src.record s hit).1 = (src.record t hit).1 ∧
      (src.record s hit).2.AgreeOn P (src.record t hit).2 := by
  have hfree : (src.places hit.address).find? (fun q => !(s.get q.1 q.2).isValid) =
      (src.places hit.address).find? fun q => !(t.get q.1 q.2).isValid := by
    revert hp
    generalize src.places hit.address = qs
    intro hp
    induction qs with
    | nil => rfl
    | cons q qs ih =>
      obtain ⟨hq, hqs⟩ := List.forall_mem_cons.1 hp
      rw [List.find?_cons, List.find?_cons, h.get_eq hq, ih hqs]
  rw [record, record]
  simp only [hfree]
  split <;> refine ⟨rfl, ?_⟩ <;> dsimp only <;> split
  · exact h.increment _ _
  · exact h
  · exact (h.increment _ _).set _ _ _
  · exact h.set _ _ _

theorem agree_recordAll (src : Source) (h : s.AgreeOn P t) (hits : List Hit)
    (hp : src.SeenIn P hits) : (src.recordAll s hits).1 = (src.recordAll t hits).1 ∧
      (src.recordAll s hits).2.AgreeOn P (src.recordAll t hits).2 := by
  induction hits generalizing src s t with
  | nil => exact ⟨rfl, h⟩
  | cons hit hits ih =>
    obtain ⟨hhit, hhits⟩ := List.forall_mem_cons.1 hp
    obtain ⟨hsrc, hst⟩ := src.agree_record h hit hhit
    rw [recordAll_cons, recordAll_cons, ← hsrc]
    refine ih _ hst fun k hk => ?_
    rw [places_record]
    exact hhits k hk

theorem agree_feed (src : Source) (h : s.AgreeOn P t) (words : List UInt32)
    (hp : SeenIn { src with decoder := (src.decoder.decode words).2.1 } P
      (src.decoder.decode words).1) :
    (src.feed s words).1 = (src.feed t words).1 ∧
      (src.feed s words).2.1.AgreeOn P (src.feed t words).2.1 :=
  agree_recordAll _ h _ hp

theorem agree_beginRun (src : Source) (h : s.AgreeOn P t) :
    (src.beginRun s).AgreeOn P (src.beginRun t) :=
  h.fill src.hitCounts Value.zero

theorem beginEvent_store (src : Source) (s : Store) : (src.beginEvent s).2 =
    s.fillAll (src.outputs.map fun p => (p.data, Value.invalid)) := by
  rw [Store.fillAll, List.foldl_map]
  rfl

theorem agree_beginEvent (src : Source) (h : s.AgreeOn P t) :
    (src.beginEvent s).1 = (src.beginEvent t).1 ∧
      (src.beginEvent s).2.AgreeOn P (src.beginEvent t).2 := by
  refine ⟨rfl, ?_⟩
  rw [beginEvent_store, beginEvent_store]
  exact h.fillAll _

theorem Spares.output {src : Source} (h : src.Spares P) {p : Pipe} (hp : p ∈ src.outputs) :
    ∀ i ∈ p.data, ¬ P i :=
  h p.data (List.mem_append_left _ (List.mem_map_of_mem hp))

theorem Spares.counts {src : Source} (h : src.Spares P) : ∀ i ∈ src.hitCounts, ¬ P i :=
  h src.hitCounts (List.mem_append_right _ List.mem_cons_self)

theorem Spares.of_resting {src src' : Source} (h : src.Spares P)
    (hr : src'.resting = src.resting) : src'.Spares P := by
  have hwritten : src'.written = src.written := by
    have hsame := congrArg Source.written hr
    exact hsame
  intro p hp
  exact h p (hwritten ▸ hp)

theorem record_frame {src : Source} (h : src.Spares P) (s : Store) (hit : Hit) :
    s.AgreeOn P (src.record s hit).2 := by
  have hcounted : ∀ c : Bool,
      s.AgreeOn P (if c then s.increment src.hitCounts hit.address else s) := by
    intro c
    cases c with
    | false => exact .refl P s
    | true => exact s.agree_increment h.counts
  rw [record]
  dsimp only
  split
  · exact hcounted _
  · next p i hfree =>
    obtain ⟨pipe, hpipe, hplace⟩ := mem_places (List.mem_of_find?_eq_some hfree)
    dsimp only at hplace ⊢
    rw [hplace]
    exact (hcounted _).trans (Store.agree_set _ _ (h.output hpipe))

theorem recordAll_frame {src : Source} (h : src.Spares P) (s : Store) (hits : List Hit) :
    s.AgreeOn P (src.recordAll s hits).2 := by
  induction hits generalizing src s with
  | nil => exact .refl P s
  | cons hit hits ih =>
    exact (record_frame h s hit).trans (ih (h.of_resting (src.resting_record s hit)) _)

theorem feed_frame {src : Source} (h : src.Spares P) (s : Store) (words : List UInt32) :
    s.AgreeOn P (src.feed s words).2.1 := by
  have hd : resting { src with decoder := (src.decoder.decode words).2.1 } = src.resting := by
    simp only [resting, Decoder.blank_decode]
  exact recordAll_frame (h.of_resting hd) s _

theorem beginRun_frame {src : Source} (h : src.Spares P) (s : Store) :
    s.AgreeOn P (src.beginRun s) := s.agree_fill _ h.counts

theorem beginEvent_frame {src : Source} (h : src.Spares P) (s : Store) :
    s.AgreeOn P (src.beginEvent s).2 := by
  rw [beginEvent_store]
  exact s.agree_fillAll (List.forall_mem_map.2 fun p hp => h.output hp)

theorem slots_record (src : Source) (s : Store) (hit : Hit) :
    (src.record s hit).2.slots = s.slots := by
  rw [record]
  dsimp only
  split <;> dsimp only <;> split <;> simp

theorem slots_recordAll (src : Source) (s : Store) (hits : List Hit) :
    (src.recordAll s hits).2.slots = s.slots := by
  induction hits generalizing src s with
  | nil => rfl
  | cons hit hits ih => exact (ih _ _).trans (src.slots_record s hit)

theorem slots_feed (src : Source) (s : Store) (words : List UInt32) :
    (src.feed s words).2.1.slots = s.slots := slots_recordAll _ s _

theorem slots_beginEvent (src : Source) (s : Store) : (src.beginEvent s).2.slots = s.slots := by
  rw [beginEvent_store]
  exact s.slots_fillAll _

end Source

end Readout
