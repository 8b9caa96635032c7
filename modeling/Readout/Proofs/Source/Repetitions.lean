import Readout.Proofs.Source.Events

/-!
# Repetitions of packed words

A source of packed words cuts its words into repetitions as long as there are enough of them. The
number of a repetition is a part of the address of its hit, above or below the bits of the filter,
and the two parts cannot be mistaken for each other (`compose_inj`). So hits of one call never
compete for an element: each is stored unless an earlier call has taken its element
(`repetitions_kept`).
-/
namespace Readout

namespace PackedDecoder

variable {d : PackedDecoder}

/-- The words of a repetition. -/
def part (d : PackedDecoder) (words : List UInt32) (r : Nat) : List UInt32 :=
  (words.drop (r * d.packing.wordCount)).take d.packing.wordCount

/-- How many repetitions there are words for. -/
def fitting (d : PackedDecoder) (words : List UInt32) : Nat :=
  min d.repetitions (words.length / d.packing.wordCount)

theorem compose_eq {a r : Nat} (ha : a < Word.size d.baseBits)
    (hr : r < Word.size d.repetitionBits) : d.compose a r =
      if d.lowRepetition then a * Word.size d.repetitionBits + r
      else r * Word.size d.baseBits + a := by
  rw [compose]
  split
  · rw [← Nat.shiftLeft_add_eq_or_of_lt hr, Nat.shiftLeft_eq]
    rfl
  · rw [Nat.or_comm, ← Nat.shiftLeft_add_eq_or_of_lt ha, Nat.shiftLeft_eq]
    rfl

/-- Whatever a filter reports in which repetition can be read off the address. -/
theorem compose_inj {a b r q : Nat} (ha : a < Word.size d.baseBits) (hb : b < Word.size d.baseBits)
    (hr : r < d.repetitions) (hq : q < d.repetitions) (h : d.compose a r = d.compose b q) :
    a = b ∧ r = q := by
  have hr := le_size_repetitionBits hr
  have hq := le_size_repetitionBits hq
  have hsplit : ∀ {x y m n w : Nat}, m < w → n < w → x * w + m = y * w + n → x = y ∧ m = n := by
    intro x y m n w hm hn h
    have hmod : (x * w + m) % w = (y * w + n) % w := congrArg (· % w) h
    rw [Nat.mul_add_mod', Nat.mul_add_mod', Nat.mod_eq_of_lt hm, Nat.mod_eq_of_lt hn] at hmod
    have hmul : x * w = y * w := by omega
    exact ⟨Nat.eq_of_mul_eq_mul_right (Nat.zero_lt_of_lt hm) hmul, hmod⟩
  rw [compose_eq ha hr, compose_eq hb hq] at h
  split at h
  · exact hsplit hr hq h
  · exact (hsplit ha hb h).symm

theorem part_succ (d : PackedDecoder) (words : List UInt32) (i : Nat) :
    d.part words (i + 1) = d.part (words.drop d.packing.wordCount) i := by
  rw [part, part, List.drop_drop, Nat.add_mul, Nat.one_mul, Nat.add_comm]

theorem decodeFrom_eq (hw : 0 < d.packing.wordCount) (r left : Nat) (words : List UInt32) :
    d.decodeFrom r left words =
      let k := min left (words.length / d.packing.wordCount)
      ((List.range k).filterMap fun i => d.hit? (r + i) (d.part words i),
        k * d.packing.wordCount) := by
  induction left generalizing r words with
  | zero => simp [decodeFrom]
  | succ left ih =>
    rw [decodeFrom]
    dsimp only
    split
    · next hshort =>
      rw [Nat.div_eq_of_lt hshort, Nat.min_zero, Nat.zero_mul]
      rfl
    · next hlong =>
      have hcount : min (left + 1) (words.length / d.packing.wordCount) =
          min left ((words.drop d.packing.wordCount).length / d.packing.wordCount) + 1 := by
        rw [List.length_drop, Nat.div_eq_sub_div hw (Nat.le_of_not_lt hlong),
          Nat.add_min_add_right]
      have hfirst : d.part words 0 = words.take d.packing.wordCount := by
        rw [part, Nat.zero_mul, List.drop_zero]
      have hrest : ((fun i => d.hit? (r + i) (d.part words i)) ∘ Nat.succ) =
          fun i => d.hit? (r + 1 + i) (d.part (words.drop d.packing.wordCount) i) := by
        funext i
        rw [Function.comp_apply, Nat.succ_eq_add_one, part_succ, Nat.add_assoc, Nat.add_comm 1 i]
      rw [ih, hcount, List.range_succ_eq_map, List.filterMap_cons, List.filterMap_map, hrest,
        hfirst]
      dsimp only
      rw [Nat.add_mul, Nat.one_mul, Nat.add_zero, Nat.add_comm d.packing.wordCount]
      cases d.hit? r (words.take d.packing.wordCount) <;> rfl

/-- The hits of the repetitions that there are words for. -/
def hits (d : PackedDecoder) (words : List UInt32) : List Hit :=
  (List.range (d.fitting words)).filterMap fun r => d.hit? r (d.part words r)

theorem matched_lt (hf : d.packing.group.Faithful) (combined : UInt64) :
    ((d.packing.matched combined).extract .address).toNat < Word.size d.baseBits := by
  have hg := d.packing.blank_matched combined
  have hlt := (hf.of_blank hg).extract_lt .address
  rwa [Group.bits_of_blank hg] at hlt

theorem exists_address (hf : d.packing.group.Faithful) {r : Nat} {words : List UInt32} {x : Hit}
    (hx : d.hit? r words = some x) :
    ∃ a < Word.size d.baseBits, x.address = d.compose a r := by
  rw [hit?_eq] at hx
  obtain ⟨-, hx⟩ := Option.ite_none_right_eq_some.1 hx
  exact ⟨_, matched_lt hf _, (congrArg Hit.address (Option.some.inj hx)).symm⟩

/-- No two repetitions of one call have the same address. -/
theorem nodup_hits (hf : d.packing.group.Faithful) (words : List UInt32) :
    ((d.hits words).map Hit.address).Nodup := by
  rw [hits, List.Nodup, List.pairwise_map, List.pairwise_filterMap]
  refine List.nodup_range.imp_of_mem fun {r q} hr hq hne x hx y hy heq => hne ?_
  have hle : d.fitting words ≤ d.repetitions := Nat.min_le_left _ _
  obtain ⟨a, ha, hax⟩ := exists_address hf hx
  obtain ⟨b, hb, hby⟩ := exists_address hf hy
  rw [hax, hby] at heq
  exact (compose_inj ha hb (Nat.lt_of_lt_of_le (List.mem_range.1 hr) hle)
    (Nat.lt_of_lt_of_le (List.mem_range.1 hq) hle) heq).2

theorem decode_eq (hw : 0 < d.packing.wordCount) (words : List UInt32) :
    (Decoder.packed d).decode words =
      (d.hits words, .packed d, d.fitting words * d.packing.wordCount) := by
  rw [Decoder.decode, decodeFrom_eq hw, hits, fitting]
  simp only [Nat.zero_add]

theorem hits_lt (hf : d.packing.group.Faithful) (hw : 0 < d.packing.wordCount)
    (words : List UInt32) : ∀ x ∈ d.hits words, x.address < Word.size d.addressBits := by
  have hlt := Decoder.Faithful.address_lt (d := .packed d) hf words
  rwa [decode_eq hw] at hlt

end PackedDecoder

namespace Source

/-- What is stored stands in the element of its address with the next number of the dither, and
every address of it is counted. All other elements and counts stay as they are. -/
structure Stores (q : Pipe) (s : Source) (st : Store) (s' : Source) (st' : Store)
    (stored : List Hit) : Prop where
  elements : ∀ (i : Nat) (x : Hit), stored[i]? = some x →
    st'.get q.data x.address = (spread s.plain (ditherAfter s.plain s.dither i) x.value).1 ∧
    st'.get s.hitCounts x.address = st.get s.hitCounts x.address + Value.one
  others : ∀ a < q.length, (∀ x ∈ stored, x.address ≠ a) →
    st'.get q.data a = st.get q.data a ∧ st'.get s.hitCounts a = st.get s.hitCounts a
  dither : s'.dither = ditherAfter s.plain s.dither stored.length

section Stores

variable {s : Source} {st : Store} {d : PackedDecoder} {q : Pipe}

theorem length_output (hs : s.Seated st.slots) (hd : s.decoder = .packed d) :
    ∃ q, s.outputs = [q] ∧ q.length = s.addressCount := by
  have harr := hs.inRange.shaped.arranged
  rw [hd] at harr
  rwa [addressCount, hd]

/-- Of the hits of one call those are stored that find their element vacant. -/
theorem feed_stores (hs : s.Seated st.slots) (hd : s.decoder = .packed d)
    (hw : 0 < d.packing.wordCount) (hq : s.outputs = [q]) (hlength : q.length = s.addressCount)
    (words : List UInt32) :
    Stores q s st (s.feed st words).1 (s.feed st words).2.1
      ((d.hits words).filter fun x => !(st.get q.data x.address).isValid) := by
  have hfaithful := hs.inRange.faithful
  rw [hd] at hfaithful
  have hn := d.nodup_hits hfaithful words
  have hinside : ∀ x ∈ d.hits words, x.address < s.addressCount := by
    rw [addressCount, hd]
    exact d.hits_lt hfaithful hw words
  have hhits : (s.decoder.decode words).1 = d.hits words := by rw [hd, d.decode_eq hw]
  generalize d.hits words = hits at hn hinside hhits ⊢
  have hplace : ∀ a, s.place a 0 = (q.data, a) := fun a => by
    rw [place, cell, hd, hq]
    rfl
  have hdepth : s.decoder.depth = 1 := by rw [hd]; rfl
  have hall : s.rules.countsAll = false := by rw [rules, countsAll, hd]
  have hvacant : ∀ a, (s.table st).element a 0 = st.get q.data a := fun a =>
    congrArg (fun x : Span × Nat => st.get x.1 x.2) (hplace a)
  have hback : Holds { s with dither := (s.feed st words).1.dither } (s.feed st words).2.1
      ((s.table st).recordAll s.rules hits) := by
    rw [← hhits]
    exact ((s.holds_table st).feed hs words).of_resting (s.resting_feed st words).symm rfl
  have hread : ∀ a < s.addressCount, (s.feed st words).2.1.get q.data a =
      ((s.table st).recordAll s.rules hits).element a 0 := fun a ha => by
    have hslot : (s.feed st words).2.1.get (s.place a 0).1 (s.place a 0).2 = _ :=
      hback.element_eq a ha 0 (by rw [hdepth]; exact Nat.zero_lt_one)
    rwa [hplace] at hslot
  obtain ⟨hstored, hothers, hdither⟩ := (s.table st).recordAll_distinct hdepth hall hn
  simp only [hvacant] at hstored hothers hdither
  refine ⟨fun i x hi => ?_, fun a ha hother => ?_, hback.dither_eq.trans hdither⟩
  · have ha := hinside x (List.mem_filter.1 (List.mem_of_getElem? hi)).1
    obtain ⟨helement, hcount⟩ := hstored i x hi
    exact ⟨(hread _ ha).trans helement, (hback.count_eq _ ha).trans hcount⟩
  · rw [hlength] at ha
    obtain ⟨helement, hcount⟩ := hothers a hother
    exact ⟨(hread a ha).trans helement, (hback.count_eq a ha).trans hcount⟩

end Stores

end Source

theorem Packing.wordCount_pos {wide reversed : Bool} {wordCount : Nat} {texts : List String}
    {p : Packing} (h : make wide reversed wordCount texts = .ok p) : 0 < p.wordCount := by
  rw [make] at h
  split at h
  · cases h
  · obtain ⟨g, -, h⟩ := exists_of_bind_eq_ok h
    split at h
    · cases h
    · next hcount =>
      obtain rfl := Except.ok.inj h
      dsimp only
      omega

namespace Source

variable {wide reversed low : Bool} {wordCount repetitions : Nat} {texts : List String}
  {p : Packing} {o : SourceOptions} {s : Source} {st : Store}

/-- Each call takes as many whole repetitions as there are words for, and none of them gets in the
way of another one: in the first call of an event all hits are stored, and later those whose
element is still vacant. -/
theorem repetitions_kept (hp : Packing.make wide reversed wordCount texts = .ok p)
    (h : (SourceRecipe.packed p repetitions low o).Reaches s st) (words : List UInt32) :
    let d : PackedDecoder := ⟨p, max repetitions 1, low⟩
    let k := min (max repetitions 1) (words.length / p.wordCount)
    let hits := (List.range k).filterMap fun r =>
      d.hit? r ((words.drop (r * p.wordCount)).take p.wordCount)
    let fresh := s.beginEvent st
    (s.feed st words).2.2 = k * p.wordCount ∧
    (∀ a < 2 ^ d.baseBits, ∀ r < max repetitions 1, d.compose a r < s.addressCount ∧
      ∀ b < 2 ^ d.baseBits, ∀ r' < max repetitions 1,
        d.compose a r = d.compose b r' → a = b ∧ r = r') ∧
    (∀ r words,
      let g := p.matched (p.combine words)
      (g.extract .address).toNat < 2 ^ d.baseBits ∧ d.hit? r words =
        if g.complete then some ⟨d.compose (g.extract .address).toNat r, g.extract .data⟩
        else none) ∧
    ∃ q, s.outputs = [q] ∧ q.length = s.addressCount ∧
      Stores q s st (s.feed st words).1 (s.feed st words).2.1
        (hits.filter fun x => !(st.get q.data x.address).isValid) ∧
      Stores q fresh.1 fresh.2 (fresh.1.feed fresh.2 words).1 (fresh.1.feed fresh.2 words).2.1
        hits := by
  intro d k hits fresh
  have hbuilt := Packing.built_make hp
  have hw : 0 < d.packing.wordCount := Packing.wordCount_pos hp
  have hd : s.decoder = .packed d :=
    Decoder.eq_of_blank nofun (h.blank_eq hbuilt)
  have hseated := h.seated hbuilt
  obtain ⟨q, hq, hlength⟩ := length_output hseated hd
  refine ⟨?_, fun a ha r hr => ⟨?_, fun b hb r' hr' => ?_⟩, fun r words => ⟨?_, ?_⟩,
    q, hq, hlength, feed_stores hseated hd hw hq hlength words, ?_⟩
  · have hdecode := d.decode_eq hw words
    rw [← hd] at hdecode
    exact congrArg (fun x => x.2.2) hdecode
  · rw [addressCount, hd]
    exact PackedDecoder.compose_lt ha (PackedDecoder.le_size_repetitionBits hr)
  · exact PackedDecoder.compose_inj ha hb hr hr'
  · exact PackedDecoder.matched_lt (d := d) hbuilt.faithful _
  · exact d.hit?_eq r words
  · have hfresh : fresh.1.Seated fresh.2.slots := hseated.apply .beginEvent
    have hd' : fresh.1.decoder = .packed d := congrArg Decoder.restart hd
    have hlength' : q.length = fresh.1.addressCount := by
      rw [hlength, addressCount, addressCount, hd, hd']
    have hvacant : ∀ x ∈ d.hits words, (!(fresh.2.get q.data x.address).isValid) = true := by
      intro x hx
      have ha : x.address < q.length := by
        rw [hlength, addressCount, hd]
        exact d.hits_lt hbuilt.faithful hw words x hx
      rw [hseated.get_beginEvent (hq ▸ List.mem_singleton_self q) ha]
      decide
    have hstores := feed_stores hfresh hd' hw hq hlength' words
    rwa [List.filter_eq_self.2 hvacant] at hstores

/-- One bit for the address and one for the data. -/
def addressData : Packing :=
  ⟨⟨[.ofPattern (Pattern.ofSymbols [.address, .data] (Nat.le_of_ble_eq_true rfl) 0)]⟩,
    false, false, 1⟩

/-- Three repetitions take two bits below the one of the filter; a fourth word is left. -/
theorem repetitions_kept_three : Packing.make false false 1 ["AD"] = .ok addressData ∧
    ∃ s st, (SourceRecipe.packed addressData 3 true ⟨0, 0, false⟩).Reaches s st ∧
      ∃ q, s.outputs = [q] ∧
      let fresh := s.beginEvent st
      (s.feed st [1, 2, 3, 0]).2.2 = 3 ∧
      Stores q fresh.1 fresh.2 (fresh.1.feed fresh.2 [1, 2, 3, 0]).1
        (fresh.1.feed fresh.2 [1, 2, 3, 0]).2.1 [⟨0, 1⟩, ⟨5, 0⟩, ⟨6, 1⟩] := by
  have hp : Packing.make false false 1 ["AD"] = .ok addressData := by decide +kernel
  obtain ⟨s, b, hmake⟩ : ∃ s b, (SourceRecipe.packed addressData 3 true ⟨0, 0, false⟩).make
      (Arena.new 1024) = (.ok s, b) := SourceRecipe.exists_make (by decide +kernel)
  have hreach : (SourceRecipe.packed addressData 3 true ⟨0, 0, false⟩).Reaches s b.store :=
    .make (Arena.sized_new 1024) hmake
  obtain ⟨hused, -, -, q, hq, -, -, hstores⟩ := repetitions_kept hp hreach [1, 2, 3, 0]
  have hhits : (⟨addressData, 3, true⟩ : PackedDecoder).hits [1, 2, 3, 0] =
      [⟨0, 1⟩, ⟨5, 0⟩, ⟨6, 1⟩] := by decide +kernel
  exact ⟨hp, s, b.store, hreach, q, hq, hused, hhits ▸ hstores⟩

end Source

end Readout
