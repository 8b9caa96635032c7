import Readout.Proofs.Arena.Contents
import Readout.Proofs.Source.Addresses
import Readout.Proofs.Source.Spread

/-!
# Limits of sources

The pipes of a source are declared to keep between zero and the power of two above its data bits.
Words write spread values into their data and nothing into their limits (`Keeps.run`), so a valid
element is never outside of its limits. It can be as large as the upper one, which is declared to
be out of reach, but only where a rounding carries it there (`within_limits`).
-/
namespace Readout

namespace SourceRecipe

/-- Groups of the recipe were put together from patterns. -/
def Legal : SourceRecipe → Prop
  | group g _ _ => g.Built
  | packed p _ _ _ => p.group.Built
  | word _ _ _ _ => True

theorem Legal.faithful {r : SourceRecipe} (h : r.Legal) : r.decoder.Faithful := by
  cases r with
  | group g required o => exact Group.Built.faithful h
  | packed p repetitions low o => exact Group.Built.faithful h
  | word p shape maxHits o => exact ⟨rfl, rfl⟩

theorem Legal.dataBits_le {r : SourceRecipe} (h : r.Legal) : r.decoder.dataBits ≤ 64 := by
  cases r with
  | group g required o => exact Group.Built.bits_le h .data
  | packed p repetitions low o => exact Group.Built.bits_le h .data
  | word p shape maxHits o =>
    have hle := p.bits_field_le .data
    exact Nat.le_trans hle (by decide)

end SourceRecipe

section Contents

open Arena

namespace Source

theorem fills_pushOutputs (length : Nat) (upper : Value) (n : Nat) :
    Fills [] (pushOutputs length upper n) fun ps =>
      ps.flatMap (Pipe.contents Value.zero upper) := by
  induction n with
  | zero => exact .pure (List.Subset.refl _)
  | succ n ih =>
    rw [pushOutputs]
    refine (Pipe.fills_push length Value.zero upper).bind fun p => ?_
    refine (ih.frame _).bind fun ps => .pure ?_
    exact (@List.perm_append_comm _ (p.contents Value.zero upper) _).subset

theorem fills_make (d : Decoder) (count length dataBits : Nat) (o : SourceOptions) :
    Fills [] (make d count length dataBits o) fun s =>
      s.outputs.flatMap (Pipe.contents Value.zero (Value.powerOfTwo dataBits)) := by
  rw [make]
  refine (fills_pushOutputs length _ count).bind fun outputs => ?_
  refine ((Fills.pushFilled d.addressCount Value.zero).frame _).bind fun counts => .pure ?_
  exact List.subset_append_right _ _

theorem fills_checkBits {base : List (Span × Value)} (bits : Nat) :
    Fills base (checkBits bits : Alloc Unit) fun _ => base := by
  rw [checkBits]
  split
  · exact .throw
  · exact .pure (List.Subset.refl base)

end Source

theorem SourceRecipe.fills_make (r : SourceRecipe) : Fills [] r.make fun s =>
    s.outputs.flatMap (Pipe.contents Value.zero (Value.powerOfTwo r.decoder.dataBits)) := by
  cases r with
  | group g required o =>
    rw [make, Source.ofGroup]
    apply Fills.check
    exact (Source.fills_checkBits _).bind fun _ => Source.fills_make _ _ _ _ o
  | packed p repetitions low o =>
    rw [make, Source.ofPacking]
    exact (Source.fills_checkBits _).bind fun _ => Source.fills_make _ _ _ _ o
  | word p shape maxHits o =>
    rw [make, Source.ofPattern]
    apply Fills.check
    refine (Source.fills_checkBits _).bind fun _ => ?_
    cases shape <;> exact Source.fills_make _ _ _ _ o

end Contents

namespace Store

theorem get_set_cases (s : Store) (p q : Span) (i j : Nat) (v : Value) :
    (s.set p i v).get q j = s.get q j ∨ (s.set p i v).get q j = v := by
  by_cases hi : i < p.length
  · by_cases hs : p.offset + i < s.slots
    · rw [set, if_pos hi, get, get, read_write s _ v hs]
      split
      · exact .inr rfl
      · exact .inl rfl
    · simp [set, hi, write_of_slots_le s v (Nat.le_of_not_lt hs)]
  · simp [set, hi]

theorem get_fill_cases (s : Store) (p q : Span) (j : Nat) (v : Value) :
    (s.fill p v).get q j = s.get q j ∨ (s.fill p v).get q j = v := by
  rw [get, fill, read_fillFrom]
  split
  · exact .inr rfl
  · exact .inl rfl

end Store

/-- What a source and its store are asked during a run. -/
inductive SourceCall
  | beginRun
  | beginEvent
  | feed (words : List UInt32)

def SourceCall.apply (s : Source × Store) : SourceCall → Source × Store
  | beginRun => (s.1, s.1.beginRun s.2)
  | beginEvent => s.1.beginEvent s.2
  | feed words =>
    let (source, store, _) := s.1.feed s.2 words
    (source, store)

namespace Source

/-- What a value of so many bits may be written as. -/
def Spreads (plain : Bool) (bits : Nat) (x : Value) : Prop :=
  ∃ (d : Dither) (v : UInt64), v.toNat < 2 ^ bits ∧ x = (spread plain d v).1

/-- The fields of the source are those of its patterns, and none of its spans share a slot. -/
structure Sealed (s : Source) : Prop where
  faithful : s.decoder.Faithful
  even : ∀ p ∈ s.outputs, p.Even
  apart : s.owned.Pairwise Span.Apart

/-- The limits are as they were declared, and valid values are spread ones. -/
structure Keeps (s : Source) (store : Store) : Prop where
  lower_eq : ∀ p ∈ s.outputs, ∀ i < p.length, store.get p.lower i = Value.zero
  upper_eq : ∀ p ∈ s.outputs, ∀ i < p.length,
    store.get p.upper i = Value.powerOfTwo s.decoder.dataBits
  spread : ∀ p ∈ s.outputs, ∀ i < p.length, (store.get p.data i).isValid = true →
    Spreads s.plain s.decoder.dataBits (store.get p.data i)

variable {s s' : Source} {store store' : Store}

section Resting

theorem dataBits_of_resting (hr : s'.resting = s.resting) :
    s'.decoder.dataBits = s.decoder.dataBits := by
  have hblank : s'.decoder.blank = s.decoder.blank := congrArg decoder hr
  rw [← Decoder.dataBits_blank, hblank, Decoder.dataBits_blank]

theorem outputs_of_resting (hr : s'.resting = s.resting) : s'.outputs = s.outputs := by
  simpa only [resting] using congrArg outputs hr

theorem plain_of_resting (hr : s'.resting = s.resting) : s'.plain = s.plain := by
  simpa only [resting] using congrArg plain hr

theorem Sealed.of_resting (h : s.Sealed) (hr : s'.resting = s.resting) : s'.Sealed where
  faithful := by
    have hblank : s'.decoder.blank = s.decoder.blank := congrArg decoder hr
    rw [← Decoder.faithful_blank, hblank, Decoder.faithful_blank]
    exact h.faithful
  even := by
    rw [outputs_of_resting hr]
    exact h.even
  apart := by
    have howned : s'.owned = s.owned := by simpa only [resting, owned] using congrArg owned hr
    rw [howned]
    exact h.apart

theorem Keeps.of_resting (h : s.Keeps store) (hr : s'.resting = s.resting) : s'.Keeps store := by
  constructor <;> rw [outputs_of_resting hr]
  · exact h.lower_eq
  · rw [dataBits_of_resting hr]
    exact h.upper_eq
  · rw [dataBits_of_resting hr, plain_of_resting hr]
    exact h.spread

end Resting

section Apart

variable {p q : Pipe}

theorem Sealed.data_apart (h : s.Sealed) (hp : p ∈ s.outputs) (hq : q ∈ s.outputs) :
    p.data.Apart q.lower ∧ p.data.Apart q.upper := by
  obtain ⟨hpipes, -, -⟩ := List.pairwise_append.1 h.apart
  obtain ⟨hown, hothers⟩ := List.pairwise_flatMap.1 hpipes
  refine List.Pairwise.forall_of_forall_of_flip
    (R := fun p q : Pipe => p.data.Apart q.lower ∧ p.data.Apart q.upper)
    ?_ (hothers.imp ?_) (hothers.imp ?_) hp hq
  · intro p hp
    have hspans := hown p hp
    simp only [Pipe.spans, List.pairwise_cons] at hspans
    exact ⟨hspans.1 _ (by simp), hspans.1 _ (by simp)⟩
  · intro p q hpq
    exact ⟨hpq _ p.data_mem_spans _ q.lower_mem_spans, hpq _ p.data_mem_spans _ q.upper_mem_spans⟩
  · intro q p hqp
    exact ⟨(hqp _ q.lower_mem_spans _ p.data_mem_spans).symm,
      (hqp _ q.upper_mem_spans _ p.data_mem_spans).symm⟩

theorem Sealed.counts_apart (h : s.Sealed) (hq : q ∈ s.outputs) :
    ∀ t ∈ q.spans, s.hitCounts.Apart t := by
  intro t ht
  obtain ⟨-, -, hcounts⟩ := List.pairwise_append.1 h.apart
  exact (hcounts t (List.mem_flatMap.2 ⟨q, hq, ht⟩) _ (List.mem_singleton_self _)).symm

end Apart

section Steps

def Limiting (s : Source) (k : Nat) : Prop := ∃ p ∈ s.outputs, k ∈ p.lower ∨ k ∈ p.upper

theorem Keeps.change (h : s.Keeps store) (hs : s.Sealed) (hlimits : store.AgreeOn s.Limiting store')
    (hdata : ∀ p ∈ s.outputs, ∀ i < p.length, store'.get p.data i = store.get p.data i ∨
      ((store'.get p.data i).isValid = true →
        Spreads s.plain s.decoder.dataBits (store'.get p.data i))) : s.Keeps store' where
  lower_eq p hp i hi := by
    have hlength := (hs.even p hp).1
    rw [← hlimits.get_eq ⟨p, hp, .inl ⟨by omega, by omega⟩⟩]
    exact h.lower_eq p hp i hi
  upper_eq p hp i hi := by
    have hlength := (hs.even p hp).2
    rw [← hlimits.get_eq ⟨p, hp, .inr ⟨by omega, by omega⟩⟩]
    exact h.upper_eq p hp i hi
  spread p hp i hi := by
    rcases hdata p hp i hi with hsame | hnew
    · rw [hsame]
      exact h.spread p hp i hi
    · exact hnew

theorem Keeps.increment (h : s.Keeps store) (hs : s.Sealed) (i : Nat) :
    s.Keeps (store.increment s.hitCounts i) := by
  refine h.change hs (store.agree_increment fun k hk => ?_) fun p hp j hj => .inl ?_
  · rintro ⟨p, hp, hlower | hupper⟩
    · exact hs.counts_apart hp _ p.lower_mem_spans k hk hlower
    · exact hs.counts_apart hp _ p.upper_mem_spans k hk hupper
  · have hagree := store.agree_increment (P := (· ∈ p.data)) (i := i)
      fun k hk => hs.counts_apart hp _ p.data_mem_spans k hk
    exact (hagree.get_eq ⟨by omega, Nat.add_lt_add_left hj _⟩).symm

theorem Sealed.agree_limits (hs : s.Sealed) {p : Pipe} (hp : p ∈ s.outputs) :
    ∀ k ∈ p.data, ¬ s.Limiting k := by
  rintro k hk ⟨q, hq, hlower | hupper⟩
  · exact (hs.data_apart hp hq).1 k hk hlower
  · exact (hs.data_apart hp hq).2 k hk hupper

theorem Keeps.set (h : s.Keeps store) (hs : s.Sealed) {p : Pipe} (hp : p ∈ s.outputs) (i : Nat)
    {x : Value} (hx : Spreads s.plain s.decoder.dataBits x) :
    s.Keeps (store.set p.data i x) := by
  refine h.change hs (store.agree_set x (hs.agree_limits hp)) fun q _ j _ => ?_
  rcases store.get_set_cases p.data q.data i j x with hsame | hnew
  · exact .inl hsame
  · refine .inr fun _ => ?_
    rw [hnew]
    exact hx

theorem Keeps.invalidate (h : s.Keeps store) (hs : s.Sealed) {p : Pipe} (hp : p ∈ s.outputs) :
    s.Keeps (store.invalidate p.data) := by
  refine h.change hs (store.agree_fill _ (hs.agree_limits hp)) fun q _ j _ => ?_
  rcases store.get_fill_cases p.data q.data j Value.invalid with hsame | hnew
  · exact .inl hsame
  · refine .inr fun hvalid => ?_
    rw [Store.invalidate, hnew] at hvalid
    exact absurd hvalid (by decide)

theorem Keeps.beginRun (h : s.Keeps store) (hs : s.Sealed) : s.Keeps (s.beginRun store) := by
  refine h.change hs (store.agree_fill _ fun k hk => ?_) fun p hp j hj => .inl ?_
  · rintro ⟨p, hp, hlower | hupper⟩
    · exact hs.counts_apart hp _ p.lower_mem_spans k hk hlower
    · exact hs.counts_apart hp _ p.upper_mem_spans k hk hupper
  · have hagree := store.agree_fill (P := (· ∈ p.data)) Value.zero
      fun k hk => hs.counts_apart hp _ p.data_mem_spans k hk
    exact (hagree.get_eq ⟨by omega, Nat.add_lt_add_left hj _⟩).symm

theorem Keeps.beginEvent (h : s.Keeps store) (hs : s.Sealed) :
    s.Keeps (s.beginEvent store).2 := by
  have hall : ∀ (ps : List Pipe) (store : Store), ps ⊆ s.outputs → s.Keeps store →
      s.Keeps (ps.foldl (fun st p => st.invalidate p.data) store) := by
    intro ps
    induction ps with
    | nil => exact fun _ _ h => h
    | cons p ps ih =>
      intro store hsub h
      obtain ⟨hp, hps⟩ := List.cons_subset.1 hsub
      exact ih _ hps (h.invalidate hs hp)
  exact hall s.outputs store (List.Subset.refl _) h

theorem Keeps.record (h : s.Keeps store) (hs : s.Sealed) {hit : Hit}
    (hv : hit.value.toNat < 2 ^ s.decoder.dataBits) :
    (s.record store hit).1.Keeps (s.record store hit).2 := by
  have hcounted : ∀ c : Bool, s.Keeps (if c then
      store.increment s.hitCounts hit.address else store) := by
    intro c
    split
    · exact h.increment hs _
    · exact h
  rw [Source.record]
  dsimp only
  split
  · exact hcounted _
  · next p i hfree =>
    obtain ⟨pipe, hpipe, hplace⟩ := mem_places (List.mem_of_find?_eq_some hfree)
    dsimp only at hplace ⊢
    rw [hplace]
    exact ((hcounted _).set hs hpipe _ ⟨s.dither, hit.value, hv, rfl⟩).of_resting rfl

theorem Keeps.recordAll (h : s.Keeps store) (hs : s.Sealed) {hits : List Hit}
    (hv : ∀ hit ∈ hits, hit.value.toNat < 2 ^ s.decoder.dataBits) :
    (s.recordAll store hits).1.Keeps (s.recordAll store hits).2 := by
  induction hits generalizing s store with
  | nil => exact h
  | cons hit hits ih =>
    obtain ⟨hhit, hhits⟩ := List.forall_mem_cons.1 hv
    have hr := s.resting_record store hit
    rw [recordAll_cons]
    refine ih (h.record hs hhit) (hs.of_resting hr) fun hit hm => ?_
    rw [dataBits_of_resting hr]
    exact hhits hit hm

theorem Keeps.feed (h : s.Keeps store) (hs : s.Sealed) (words : List UInt32) :
    (s.feed store words).1.Keeps (s.feed store words).2.1 := by
  have hr : resting { s with decoder := (s.decoder.decode words).2.1 } = s.resting := by
    simp only [resting, Decoder.blank_decode]
  refine (h.of_resting hr).recordAll (hs.of_resting hr) fun hit hm => ?_
  rw [dataBits_of_resting hr]
  exact hs.faithful.value_lt words hit hm

end Steps

section Runs

theorem resting_apply (s : Source) (store : Store) (c : SourceCall) : (c.apply (s, store)).1.resting = s.resting := by
  cases c with
  | beginRun => rfl
  | beginEvent => exact s.resting_beginEvent store
  | feed words => exact s.resting_feed store words

theorem Keeps.apply (h : s.Keeps store) (hs : s.Sealed) (c : SourceCall) :
    (c.apply (s, store)).1.Keeps (c.apply (s, store)).2 := by
  cases c with
  | beginRun => exact h.beginRun hs
  | beginEvent => exact (h.beginEvent hs).of_resting (s.resting_beginEvent store)
  | feed words => exact h.feed hs words

/-- What a source is asked in a run leaves its limits alone and keeps its values within them. -/
theorem Keeps.run (h : s.Keeps store) (hs : s.Sealed) (calls : List SourceCall) :
    (calls.foldl SourceCall.apply (s, store)).1.resting = s.resting ∧
      s.Keeps (calls.foldl SourceCall.apply (s, store)).2 := by
  induction calls generalizing s store with
  | nil => exact ⟨rfl, h⟩
  | cons c calls ih =>
    have hr := resting_apply s store c
    obtain ⟨hrest, hkeeps⟩ := ih (h.apply hs c) (hs.of_resting hr)
    exact ⟨hrest.trans hr, hkeeps.of_resting hr.symm⟩

theorem keeps_make {l : Arena.Ledger} (hl : l.Sound) {r : SourceRecipe} (hr : r.Legal)
    {a : Arena} (hmake : r.make l.arena = (.ok s, a)) :
    s.decoder = r.decoder ∧ s.Sealed ∧ s.Keeps a.store := by
  have htakes := r.takes_make
  have hwith := htakes.result l.arena s (by rw [hmake])
  have hplaced := htakes.placed 0 [] l.arena s (.nil (Nat.zero_le _)) (by rw [hmake])
  obtain ⟨l', harena, hholds⟩ := r.fills_make l [] s a (.nil hl) hmake
  rw [List.append_nil] at hplaced hholds
  subst harena
  have hreads : ∀ p ∈ s.outputs, _ := fun p hp => Pipe.forall_mem_contents.1 fun q hq =>
    hholds.reads q (List.mem_flatMap.2 ⟨p, hp, hq⟩)
  have hsealed : s.Sealed :=
    ⟨by rw [hwith.decoder_eq]; exact hr.faithful, hwith.made.outputs_even, hplaced.apart⟩
  refine ⟨hwith.decoder_eq, hsealed, fun p hp i hi => ?_, fun p hp i hi => ?_,
    fun p hp i hi hvalid => ?_⟩ <;> obtain ⟨hupper, hlower, hdata⟩ := hreads p hp
  · exact hlower i ((hsealed.even p hp).1 ▸ hi)
  · rw [hwith.decoder_eq]
    exact hupper i ((hsealed.even p hp).2 ▸ hi)
  · have hinvalid : l'.arena.store.get p.data i = Value.invalid := hdata i hi
    rw [hinvalid] at hvalid
    exact absurd hvalid (by decide)

end Runs

section Samples

def lowBits (bits : Nat) (h : bits ≤ 32) : Pattern :=
  Pattern.ofSymbols (List.replicate bits .data) (by simpa using h) (-1)

/-- A group of such words, each of which completes one value. -/
def ofWords (ps : List Pattern) (plain : Bool) : SourceRecipe :=
  .group ⟨ps.map Member.ofPattern⟩ 1 ⟨0, 0, plain⟩

/-- The first element of the first output behind the run of a new source, and its upper limit. -/
def firstAfter (r : SourceRecipe) (arena : Arena) (d : Dither) (calls : List SourceCall) :
    Option (Value × Value) :=
  match r.make arena with
  | (.ok s, a) =>
    let store := (calls.foldl SourceCall.apply ({ s with dither := d }, a.store)).2
    (s.outputs.find? fun p => decide (0 < p.length)).map fun p =>
      (store.get p.data 0, store.get p.upper 0)
  | (.error _, _) => none

theorem exists_of_firstAfter {r : SourceRecipe} {arena : Arena} {d : Dither}
    {calls : List SourceCall} {P : Value → Value → Prop} {x upper : Value}
    (h : firstAfter r arena d calls = some (x, upper)) (hP : P x upper) :
    ∃ s a, r.make arena = (.ok s, a) ∧ ∃ p ∈ s.outputs, 0 < p.length ∧
      let store := (calls.foldl SourceCall.apply ({ s with dither := d }, a.store)).2
      P (store.get p.data 0) (store.get p.upper 0) := by
  rw [firstAfter] at h
  split at h
  · next s a hmake =>
    obtain ⟨p, hfind, hread⟩ := Option.map_eq_some_iff.1 h
    have hlength : 0 < p.length := by simpa using List.find?_some hfind
    obtain ⟨rfl, rfl⟩ := Prod.mk.inj hread
    exact ⟨s, a, hmake, p, List.mem_of_find?_eq_some hfind, hlength, hP⟩
  · cases h

def wide : SourceRecipe := ofWords [lowBits 32 (by decide), lowBits 32 (by decide)] true

def narrow : SourceRecipe := ofWords [lowBits 1 (by decide)] false

theorem legal_ofWords {ps : List Pattern} {plain : Bool}
    (h : ps.foldlM Group.add Group.empty = .ok ⟨ps.map Member.ofPattern⟩) :
    (ofWords ps plain).Legal :=
  Group.Built.empty.ofPatterns h

end Samples

/-- Every valid element of a source lies between its limits, the upper one included. It stays
below that one exactly if the value and the fraction it was spread from lack more than the last
half step to it, so always if no fraction is added and there are no more than 53 data bits. -/
theorem within_limits (bytes : Nat) (requests : List Arena.Request) {r : SourceRecipe}
    (hr : r.Legal) {a : Arena}
    (hmake : r.make ((Arena.Ledger.new bytes).after requests).arena = (.ok s, a))
    (d : Dither) (calls : List SourceCall) :
    let store := (calls.foldl SourceCall.apply ({ s with dither := d }, a.store)).2
    let bits := r.decoder.dataBits
    ∀ p ∈ s.outputs, ∀ i < p.length,
      let x := store.get p.data i
      let upper := store.get p.upper i
      Value.Is (store.get p.lower i) 0 ∧ Value.Is upper (2 ^ bits) ∧
      (x.isValid = true →
        Value.atMost (store.get p.lower i) x = true ∧ Value.atMost x upper = true ∧
        (∃ (d : Dither) (v : UInt64), v.toNat < 2 ^ bits ∧ x = (spread s.plain d v).1 ∧
          (Value.below x upper = true ↔
            2 ^ 54 * v.toNat + 2 * drawn s.plain d + 2 ^ bits < 2 ^ (bits + 54))) ∧
        (s.plain = true ∧ bits ≤ 53 → Value.below x upper = true)) := by
  intro store bits p hp i hi x upper
  obtain ⟨hdecoder, hsealed, hnew⟩ :=
    keeps_make ((Arena.Ledger.sound_new bytes).after requests) hr hmake
  have hstart : Keeps { s with dither := d } a.store := hnew.of_resting rfl
  obtain ⟨-, hkeeps⟩ := hstart.run (hsealed.of_resting rfl) calls
  have hbits : s.decoder.dataBits = bits := congrArg Decoder.dataBits hdecoder
  have hle : bits ≤ 64 := hr.dataBits_le
  have hlower : store.get p.lower i = Value.zero := hkeeps.lower_eq p hp i hi
  have hupper : upper = Value.powerOfTwo bits := by
    rw [← hbits]
    exact hkeeps.upper_eq p hp i hi
  rw [hlower, hupper]
  refine ⟨.zero, Value.is_powerOfTwo (by omega), fun hvalid => ?_⟩
  obtain ⟨d', v, hv, hx⟩ := hkeeps.spread p hp i hi hvalid
  have hx : x = (spread s.plain d' v).1 := hx
  rw [hbits] at hv
  obtain ⟨hge, hatMost, hbelow⟩ := spread_limits s.plain d' hv hle
  rw [← hx] at hge hatMost hbelow
  refine ⟨hge, hatMost, ⟨d', v, hv, hx, hbelow⟩, fun ⟨hplain, hshort⟩ => hbelow.2 ?_⟩
  rw [drawn, if_pos hplain]
  exact spread_plain_lt hv hshort

theorem within_limits_narrow :
    ∃ s a, narrow.make ((Arena.Ledger.new 1024).after [.bytes 5 1]).arena = (.ok s, a) ∧
      ∃ p ∈ s.outputs, 0 < p.length ∧
        let store := ([.beginEvent, .feed [1]].foldl SourceCall.apply
          ({ s with dither := ⟨1, 2, 3, 4⟩ }, a.store)).2
        (store.get p.data 0).isValid = true ∧
          Value.atMost (store.get p.data 0) (store.get p.upper 0) = true := by
  have hrun : firstAfter narrow ((Arena.Ledger.new 1024).after [.bytes 5 1]).arena
      ⟨1, 2, 3, 4⟩ [.beginEvent, .feed [1]] =
        some ((spread false ⟨1, 2, 3, 4⟩ 1).1, Value.powerOfTwo 1) := by
    decide +kernel
  obtain ⟨s, a, hmake, p, hp, hlength, hvalid⟩ :=
    exists_of_firstAfter (P := fun x _ => x.isValid = true) hrun (by decide +kernel)
  obtain ⟨-, -, hlimits⟩ := within_limits 1024 [.bytes 5 1] (legal_ofWords rfl) hmake
    ⟨1, 2, 3, 4⟩ [.beginEvent, .feed [1]] p hp 0 hlength
  obtain ⟨-, hatMost, -⟩ := hlimits hvalid
  exact ⟨s, a, hmake, p, hp, hlength, hvalid, hatMost⟩

/-- With 64 data bits the conversion of the value is enough to reach the limit, with a single one
the largest fraction is. -/
theorem reaches_upper_limit :
    (wide.Legal ∧ ∃ s a, wide.make (Arena.new 1024) = (.ok s, a) ∧
      ∃ p ∈ s.outputs, 0 < p.length ∧
        let store := ([.beginEvent, .feed [0xffffffff, 0xffffffff]].foldl SourceCall.apply
          ({ s with dither := default }, a.store)).2
        (store.get p.data 0).isValid = true ∧
          Value.below (store.get p.data 0) (store.get p.upper 0) = false) ∧
    narrow.Legal ∧ ∃ s a, narrow.make (Arena.new 1024) = (.ok s, a) ∧
      ∃ p ∈ s.outputs, 0 < p.length ∧
        let store := ([.beginEvent, .feed [1]].foldl SourceCall.apply
          ({ s with dither := ⟨0xffffffffffffffff, 0, 0, 1⟩ }, a.store)).2
        (store.get p.data 0).isValid = true ∧
          Value.below (store.get p.data 0) (store.get p.upper 0) = false := by
  refine ⟨⟨legal_ofWords rfl, ?_⟩, legal_ofWords rfl, ?_⟩
  · have hrun : firstAfter wide (Arena.new 1024) default
        [.beginEvent, .feed [0xffffffff, 0xffffffff]] =
          some (Value.powerOfTwo 64, Value.powerOfTwo 64) := by
      decide +kernel
    exact exists_of_firstAfter (P := fun x upper => x.isValid = true ∧ Value.below x upper = false)
      hrun (by decide +kernel)
  · have hrun : firstAfter narrow (Arena.new 1024)
        ⟨0xffffffffffffffff, 0, 0, 1⟩ [.beginEvent, .feed [1]] =
          some (Value.powerOfTwo 1, Value.powerOfTwo 1) := by
      decide +kernel
    exact exists_of_firstAfter (P := fun x upper => x.isValid = true ∧ Value.below x upper = false)
      hrun (by decide +kernel)

end Source

end Readout
