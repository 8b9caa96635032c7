import Readout.Proofs.Source.Events

/-!
# Several hits of an address

A source of single words keeps the first hits of each address in their order, across its outputs or
in an output for each address. Both arrangements count all hits and draw for those that are stored,
so the outputs of the one are those of the other, transposed (`hits_arranged`).
-/
namespace Readout

def Pattern.hit (p : Pattern) (word : UInt32) : Hit :=
  ⟨((p.field .address).extract word).toNat, ((p.field .data).extract word).toUInt64⟩

/-- The hits of the words that fit the pattern, where the first word has the number `i`. -/
def Pattern.hitsFrom (p : Pattern) (i : Nat) (words : List UInt32) : List Hit :=
  ((words.zipIdx i).filter fun x => p.accepts x.1 x.2).map fun x => p.hit x.1

def Pattern.hits (p : Pattern) (words : List UInt32) : List Hit := p.hitsFrom 0 words

def Pattern.decoder (p : Pattern) (shape : Shape) (maxHits : Nat) : Decoder :=
  .word ⟨p, p.field .address, p.field .data, shape, maxHits⟩

/-- The output of hit number `k` of an address, and its place there. -/
def Shape.cell : Shape → Nat → Nat → Nat × Nat
  | perHit, a, k => (k, a)
  | perAddress, a, k => (a, k)

/-- What a source of single words makes of an event. -/
structure Source.CollectsHits (p : Pattern) (shape : Shape) (maxHits : Nat) (s : Source)
    (st : Store) (feeds : List (List UInt32)) : Prop where
  inside : ∀ h ∈ feeds.flatMap p.hits, h.address < s.addressCount
  /-- Element `k` holds the next hit after `k` others, spread by the number behind those of the
  hits that were stored before it. -/
  elements : ∀ a < s.addressCount, ∀ k < maxHits, ∃ q,
    s.outputs[(shape.cell a k).1]? = some q ∧ (shape.cell a k).2 < q.length ∧
    let hits := feeds.flatMap p.hits
    let stored := kept (fun _ => maxHits) hits
    let x := (s.event st feeds).2.get q.data (shape.cell a k).2
    ((hitsOf a hits).length ≤ k → x = Value.invalid) ∧
    ∀ h, (hitsOf a hits)[k]? = some h → ∃ i, stored[i]? = some h ∧
      (hitsOf a (stored.take i)).length = k ∧
      x = (spread s.plain (ditherAfter s.plain s.dither i) h.value).1
  counts : ∀ a < s.addressCount,
    let n := (hitsOf a (feeds.flatMap p.hits)).length
    let x := (s.event st feeds).2.get s.hitCounts a
    x = Filler.raised n (st.get s.hitCounts a) ∧
    ∀ m, st.get s.hitCounts a = Value.ofNat m → m + n < 2 ^ 53 → x = Value.ofNat (m + n)
  dither : (s.event st feeds).1.dither =
    ditherAfter s.plain s.dither (kept (fun _ => maxHits) (feeds.flatMap p.hits)).length

theorem Value.raised_ofNat {m n : Nat} (h : m + n < 2 ^ 53) :
    Filler.raised n (Value.ofNat m) = Value.ofNat (m + n) := by
  induction n with
  | zero => rfl
  | succ n ih =>
    have hn : m + n + 1 < 2 ^ 53 := h
    rw [Filler.raised_succ, ih (by omega), Value.ofNat_succ hn, Nat.add_assoc]

theorem WordDecoder.decodeFrom_eq {d : WordDecoder} (ha : d.address = d.pattern.field .address)
    (hd : d.data = d.pattern.field .data) (i : Nat) (words : List UInt32) :
    d.decodeFrom i words = d.pattern.hitsFrom i words := by
  induction words generalizing i with
  | nil => rfl
  | cons w words ih =>
    rw [decodeFrom, ih, hit?, ha, hd, Pattern.hitsFrom, Pattern.hitsFrom, List.zipIdx_cons,
      List.filter_cons]
    split
    · rfl
    · rfl

theorem Pattern.decode_decoder (p : Pattern) (shape : Shape) (maxHits : Nat)
    (words : List UInt32) : ((p.decoder shape maxHits).decode words).1 = p.hits words :=
  WordDecoder.decodeFrom_eq rfl rfl 0 words

namespace Source

variable {p : Pattern} {shape : Shape} {maxHits : Nat} {o : SourceOptions} {s : Source}
  {st : Store}

theorem decodeAll_decoder (p : Pattern) (shape : Shape) (maxHits : Nat)
    (feeds : List (List UInt32)) :
    (p.decoder shape maxHits).decodeAll feeds = feeds.flatMap p.hits := by
  induction feeds with
  | nil => rfl
  | cons words feeds ih =>
    rw [Decoder.decodeAll, List.flatMap_cons, Pattern.decode_decoder]
    exact congrArg (p.hits words ++ ·) ih

theorem decoder_of_reaches (h : (SourceRecipe.word p shape maxHits o).Reaches s st) :
    s.decoder = p.decoder shape maxHits :=
  Decoder.eq_of_blank nofun (h.blank_eq trivial)

theorem collects_of_reaches (h : (SourceRecipe.word p shape maxHits o).Reaches s st)
    (feeds : List (List UInt32)) : s.CollectsHits p shape maxHits st feeds := by
  have hd := decoder_of_reaches h
  have hhits : s.decoder.restart.decodeAll feeds = feeds.flatMap p.hits := by
    rw [hd]
    exact decodeAll_decoder p shape maxHits feeds
  have hdepth : s.decoder.depth = maxHits := by rw [hd]; rfl
  have hcell : ∀ a k, s.cell a k = shape.cell a k := by
    intro a k
    rw [cell, hd]
    cases shape <;> rfl
  have hall : s.countsAll = true := by rw [countsAll, hd]; rfl
  obtain ⟨helements, hcounts, hdither⟩ := event_eq (h.seated trivial) feeds
  rw [hhits, hdepth] at helements hdither
  rw [hhits, hall, if_pos rfl] at hcounts
  refine ⟨fun g hg => ?_, fun a ha k hk => ?_, fun a ha => ?_, hdither⟩
  · obtain ⟨words, -, hg⟩ := List.mem_flatMap.1 hg
    obtain ⟨x, -, rfl⟩ := List.mem_map.1 hg
    rw [addressCount, hd]
    exact Field.extract_lt p .address x.1
  · rw [← hcell]
    exact helements a ha k hk
  · refine ⟨hcounts a ha, fun m hm hlt => ?_⟩
    rw [hcounts a ha, hm, Value.raised_ofNat hlt]

/-- Two sources that differ in the arrangement of their outputs and keep one table. -/
structure Alike (p : Pattern) (maxHits : Nat) (s : Source) (st : Store) (s' : Source)
    (st' : Store) : Prop where
  seated : s.Seated st.slots
  seated' : s'.Seated st'.slots
  decoder_eq : s.decoder = p.decoder .perHit maxHits
  decoder_eq' : s'.decoder = p.decoder .perAddress maxHits
  plain_eq : s'.plain = s.plain
  table : ∃ t, s.Holds st t ∧ s'.Holds st' t

/-- Two sources that differ in the arrangement of their outputs show each other's outputs
transposed, and the same counts and dither. -/
structure Transposed (count maxHits : Nat) (s : Source) (st : Store) (s' : Source) (st' : Store) :
    Prop where
  elements : ∀ a < count, ∀ k < maxHits, ∃ q q', s.outputs[k]? = some q ∧ a < q.length ∧
    s'.outputs[a]? = some q' ∧ k < q'.length ∧ st.get q.data a = st'.get q'.data k
  counts : ∀ a < count, st.get s.hitCounts a = st'.get s'.hitCounts a
  dither : s.dither = s'.dither

section Alike

variable {s s' : Source} {st st' : Store}

theorem decoder_apply_word {d : WordDecoder} (hd : s.decoder = .word d) (c : SourceCall) :
    (c.apply (s, st)).1.decoder = .word d := by
  cases c with
  | beginRun => exact hd
  | beginEvent => exact congrArg Decoder.restart hd
  | feed words =>
    refine (s.decoder_feed st words).trans ?_
    rw [hd]
    rfl

theorem Alike.apply (h : Alike p maxHits s st s' st') (c : SourceCall) :
    Alike p maxHits (c.apply (s, st)).1 (c.apply (s, st)).2 (c.apply (s', st')).1
      (c.apply (s', st')).2 where
  seated := h.seated.apply c
  seated' := h.seated'.apply c
  decoder_eq := decoder_apply_word h.decoder_eq c
  decoder_eq' := decoder_apply_word h.decoder_eq' c
  plain_eq := by
    rw [plain_of_resting (resting_apply s st c), plain_of_resting (resting_apply s' st' c)]
    exact h.plain_eq
  table := by
    obtain ⟨t, ht, ht'⟩ := h.table
    cases c with
    | beginRun => exact ⟨_, ht.beginRun h.seated, ht'.beginRun h.seated'⟩
    | beginEvent => exact ⟨_, ht.beginEvent h.seated, ht'.beginEvent h.seated'⟩
    | feed words =>
      have hfed := ht.feed h.seated words
      have hfed' := ht'.feed h.seated' words
      have hrules : s'.rules = s.rules := by
        rw [rules, rules, countsAll, countsAll, h.decoder_eq, h.decoder_eq', h.plain_eq]
        rfl
      rw [h.decoder_eq, Pattern.decode_decoder] at hfed
      rw [h.decoder_eq', Pattern.decode_decoder, hrules] at hfed'
      exact ⟨_, hfed, hfed'⟩

theorem Alike.run (h : Alike p maxHits s st s' st') (calls : List SourceCall) :
    let after := calls.foldl SourceCall.apply (s, st)
    let after' := calls.foldl SourceCall.apply (s', st')
    Alike p maxHits after.1 after.2 after'.1 after'.2 := by
  induction calls generalizing s st s' st' with
  | nil => exact h
  | cons c calls ih => exact ih (h.apply c)

theorem Alike.transposed (h : Alike p maxHits s st s' st') :
    Transposed (p.decoder .perHit maxHits).addressCount maxHits s st s' st' := by
  rw [← h.decoder_eq]
  obtain ⟨t, ht, ht'⟩ := h.table
  have hcount : s'.decoder.addressCount = s.decoder.addressCount := by
    rw [h.decoder_eq, h.decoder_eq']
    rfl
  refine ⟨fun a ha k hk => ?_, fun a ha => ?_, ht.dither_eq.trans ht'.dither_eq.symm⟩
  · have ha' : a < s'.decoder.addressCount := hcount ▸ ha
    have hk₁ : k < s.decoder.depth := by rwa [h.decoder_eq]
    have hk₂ : k < s'.decoder.depth := by rwa [h.decoder_eq']
    obtain ⟨q, hq, hlt, hplace⟩ := h.seated.inRange.shaped.place_eq ha hk₁
    obtain ⟨q', hq', hlt', hplace'⟩ := h.seated'.inRange.shaped.place_eq ha' hk₂
    have hread := (ht.element_eq a ha k hk₁).trans (ht'.element_eq a ha' k hk₂).symm
    have hcell : s.cell a k = (k, a) := by rw [cell, h.decoder_eq]; rfl
    have hcell' : s'.cell a k = (a, k) := by rw [cell, h.decoder_eq']; rfl
    rw [hplace, hplace'] at hread
    rw [hcell] at hq hlt hread
    rw [hcell'] at hq' hlt' hread
    exact ⟨q, q', hq, hlt, hq', hlt', hread⟩
  · exact (ht.count_eq a ha).trans (ht'.count_eq a (hcount ▸ ha)).symm

/-- When an event begins, only the dither and the counts are left to differ. -/
theorem alike_beginEvent {o o' : SourceOptions}
    (h : (SourceRecipe.word p .perHit maxHits o).Reaches s st)
    (h' : (SourceRecipe.word p .perAddress maxHits o').Reaches s' st')
    (hplain : o.plain = o'.plain) (hdither : s.dither = s'.dither)
    (hcounts : ∀ a < s.addressCount, st.get s.hitCounts a = st'.get s'.hitCounts a) :
    Alike p maxHits (s.beginEvent st).1 (s.beginEvent st).2 (s'.beginEvent st').1
      (s'.beginEvent st').2 where
  seated := (h.seated trivial).apply .beginEvent
  seated' := (h'.seated trivial).apply .beginEvent
  decoder_eq := decoder_apply_word (decoder_of_reaches h) .beginEvent
  decoder_eq' := decoder_apply_word (decoder_of_reaches h') .beginEvent
  plain_eq := (h'.plain_eq trivial).trans (hplain.symm.trans (h.plain_eq trivial).symm)
  table := by
    have hcount : s'.decoder.addressCount = s.addressCount := by
      rw [addressCount, decoder_of_reaches h, decoder_of_reaches h']
      rfl
    have ht' : s'.Holds st' ⟨(s'.table st').element, (s.table st).count, s.dither⟩ :=
      ⟨hdither.symm, fun _ _ _ _ => rfl, fun a ha => (hcounts a (hcount ▸ ha)).symm⟩
    have hbegun' := ht'.beginEvent (h'.seated trivial)
    exact ⟨(s.table st).renew, (s.holds_table st).beginEvent (h.seated trivial), hbegun'⟩

end Alike

/-- A source of single words keeps the first hits of each address in their order and counts all of
them. From the same dither and the same counts on, the two arrangements of its outputs cannot be
told apart but by their shape, whatever is asked from the beginning of an event on. -/
theorem hits_arranged (p : Pattern) (maxHits : Nat) :
    (∀ (shape : Shape) (o : SourceOptions) (s : Source) (st : Store),
      (SourceRecipe.word p shape maxHits o).Reaches s st →
      ∀ feeds, s.CollectsHits p shape maxHits st feeds) ∧
    ∀ (o o' : SourceOptions) (s s' : Source) (st st' : Store),
      (SourceRecipe.word p .perHit maxHits o).Reaches s st →
      (SourceRecipe.word p .perAddress maxHits o').Reaches s' st' →
      o.plain = o'.plain → s.dither = s'.dither →
      (∀ a < s.addressCount, st.get s.hitCounts a = st'.get s'.hitCounts a) →
      ∀ calls : List SourceCall,
        let after := calls.foldl SourceCall.apply (s.beginEvent st)
        let after' := calls.foldl SourceCall.apply (s'.beginEvent st')
        Transposed s.addressCount maxHits after.1 after.2 after'.1 after'.2 := by
  refine ⟨fun shape o s st h feeds => collects_of_reaches h feeds, ?_⟩
  intro o o' s s' st st' h h' hplain hdither hcounts calls after after'
  have hafter := ((alike_beginEvent h h' hplain hdither hcounts).run calls).transposed
  rwa [← decoder_of_reaches h] at hafter

theorem length_short : [Symbol.address, .data].length ≤ 32 := Nat.le_of_ble_eq_true rfl

/-- One bit for the address and one for the data. -/
def short : Pattern := Pattern.ofSymbols [.address, .data] length_short (-1)

/-- Two sources that are made for two hits of either address. -/
theorem hits_arranged_short :
    ∃ s st s' st', (SourceRecipe.word short .perHit 2 ⟨0, 0, false⟩).Reaches s st ∧
      (SourceRecipe.word short .perAddress 2 ⟨7, 1, false⟩).Reaches s' st' ∧
      s.CollectsHits short .perHit 2 st [[0, 3], [2, 3]] ∧
      let after := [.feed [0, 3], .feed [2, 3]].foldl SourceCall.apply (s.beginEvent st)
      let after' := [.feed [0, 3], .feed [2, 3]].foldl SourceCall.apply (s'.beginEvent st')
      Transposed s.addressCount 2 after.1 after.2 after'.1 after'.2 := by
  obtain ⟨s, b, hmake⟩ : ∃ s b, (SourceRecipe.word short .perHit 2 ⟨0, 0, false⟩).make
      (Arena.new 1024) = (.ok s, b) := SourceRecipe.exists_make (by decide +kernel)
  obtain ⟨s', b', hmake'⟩ : ∃ s b, (SourceRecipe.word short .perAddress 2 ⟨7, 1, false⟩).make
      (Arena.new 1024) = (.ok s, b) := SourceRecipe.exists_make (by decide +kernel)
  have hnew := SourceRecipe.Reaches.make (Arena.sized_new 1024) hmake
  have hnew' := SourceRecipe.Reaches.make (Arena.sized_new 1024) hmake'
  have hseated := hnew.seated trivial
  have hseated' := hnew'.seated trivial
  -- a new run starts with the same counts, and the dither is put to the same place
  have h := (hnew.call .beginRun).draw default
  have h' := (hnew'.call .beginRun).draw default
  obtain ⟨hcollects, htransposed⟩ := hits_arranged short 2
  refine ⟨_, _, _, _, h, h', hcollects _ _ _ _ h _, ?_⟩
  refine htransposed _ _ _ _ _ _ h h' rfl rfl (fun a ha => ?_) _
  have ha' : a < s'.addressCount := by
    rw [hnew'.addressCount_eq trivial]
    exact Nat.lt_of_lt_of_eq ha (hnew.addressCount_eq trivial)
  have hzero := ((s.holds_table b.store).beginRun hseated).count_eq a ha
  have hzero' := ((s'.holds_table b'.store).beginRun hseated').count_eq a ha'
  exact hzero.trans hzero'.symm

end Source

end Readout
