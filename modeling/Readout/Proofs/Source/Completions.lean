import Readout.Proofs.Source.Events

/-!
# Completions of groups

A group is a hand of patterns to which words are dealt: each word goes to the first pattern that
holds none yet and accepts it, and a full hand is put away for an empty one. Every so many full
hands give a hit, and a source keeps the first hit of each address (`completions_kept`).
-/
namespace Readout

/-- Patterns in their order, each with the word that it holds. -/
abbrev Hand := List (Pattern × Option UInt32)

namespace Hand

def empty (ps : List Pattern) : Hand := ps.map fun p => (p, none)

/-- A word goes to the first pattern that holds none and accepts it, if there is one. -/
def place (word : UInt32) (index : Nat) (hand : Hand) : Hand :=
  match hand.findIdx? fun x => x.2.isNone && x.1.accepts word index with
  | some k => hand.modify k fun x => (x.1, some word)
  | none => hand

/-- The patterns with their words, if no word is missing. -/
def full? (hand : Hand) : Option (List (Pattern × UInt32)) := hand.mapM fun x => x.2.map (x.1, ·)

/-- The full hands that words with their positions lead to. -/
def completions (ps : List Pattern) : Hand → List (UInt32 × Nat) → List (List (Pattern × UInt32))
  | _, [] => []
  | hand, (word, index) :: rest =>
    match (hand.place word index).full? with
    | some words => words :: completions ps (empty ps) rest
    | none => completions ps (hand.place word index) rest

/-- The fields of words side by side, that of the first word in the low bits. -/
def joined (s : Symbol) : List (Pattern × UInt32) → Nat
  | [] => 0
  | (p, word) :: rest => ((p.field s).extract word).toNat + 2 ^ (p.field s).bits * joined s rest

def pair (words : List (Pattern × UInt32)) : Hit :=
  ⟨joined .address words, UInt64.ofNat (joined .data words)⟩

/-- Every `r`-th of the items, when `n` others came before them. -/
def everyNth {α : Type} (r n : Nat) (items : List α) : List α :=
  ((items.zipIdx (n + 1)).filter fun x => x.2 % r = 0).map Prod.fst

section Place

variable {word : UInt32} {index : Nat} {x : Pattern × Option UInt32}

theorem place_cons_self (hx : (x.2.isNone && x.1.accepts word index) = true) (hand : Hand) :
    place word index (x :: hand) = (x.1, some word) :: hand := by
  rw [place, List.findIdx?_cons, if_pos hx]
  rfl

theorem place_cons_next (hx : (x.2.isNone && x.1.accepts word index) = false) (hand : Hand) :
    place word index (x :: hand) = x :: hand.place word index := by
  rw [place, place, List.findIdx?_cons, hx, if_neg Bool.false_ne_true]
  cases hand.findIdx? fun x => x.2.isNone && x.1.accepts word index <;> rfl

end Place

theorem full?_cons (x : Pattern × Option UInt32) (hand : Hand) :
    full? (x :: hand) = x.2.bind fun word => hand.full?.map ((x.1, word) :: ·) := by
  rw [full?, List.mapM_cons, full?]
  cases x.2 with
  | none => rfl
  | some word => cases hand.mapM fun x => x.2.map (x.1, ·) <;> rfl

end Hand

theorem Hand.everyNth_cons {α : Type} (r n : Nat) (x : α) (items : List α) :
    Hand.everyNth r n (x :: items) =
      (if (n + 1) % r = 0 then [x] else []) ++ Hand.everyNth r (n + 1) items := by
  rw [everyNth, everyNth, List.zipIdx_cons, List.filter_cons]
  simp only [decide_eq_true_eq]
  split <;> rfl

def Part.symbol : Part → Symbol
  | address => .address
  | data => .data

def Member.held (m : Member) : Pattern × Option UInt32 :=
  (m.pattern, if m.taken then some m.word else none)

namespace Group

def hand (g : Group) : Hand := g.members.map Member.held

def patterns (g : Group) : List Pattern := g.members.map Member.pattern

theorem patterns_of_blank {g g' : Group} (h : g'.blank = g.blank) : g'.patterns = g.patterns := by
  have hpatterns : ∀ g : Group, g.blank.patterns = g.patterns := fun g => by
    rw [patterns, blank, List.map_map]
    rfl
  rw [← hpatterns, h, hpatterns]

section Patterns

variable {g g' : Group}

theorem patterns_add {p : Pattern} (h : g.add p = .ok g') : g'.patterns = g.patterns ++ [p] := by
  obtain ⟨rfl, -⟩ := add_eq_ok h
  rw [patterns_of_blank (blank_release _)]
  simp [patterns, Member.ofPattern]

theorem patterns_ofPatterns {ps : List Pattern} (h : ps.foldlM add g = .ok g') :
    g'.patterns = g.patterns ++ ps := by
  induction ps generalizing g with
  | nil => simp [← Except.ok.inj h]
  | cons p ps ih =>
    rw [List.foldlM_cons] at h
    obtain ⟨k, hk, h⟩ := exists_of_bind_eq_ok h
    rw [ih h, patterns_add hk, List.append_assoc, List.singleton_append]

end Patterns

theorem held_offerTo (word : UInt32) (index : Nat) (ms : List Member) :
    (offerTo word index ms).map Member.held = Hand.place word index (ms.map Member.held) := by
  induction ms with
  | nil => rfl
  | cons m ms ih =>
    have hfree : (m.held.2.isNone && m.held.1.accepts word index) =
        (!m.taken && m.pattern.accepts word index) := by
      rw [Member.held]
      cases m.taken <;> rfl
    rw [offerTo, List.map_cons]
    split
    · next hm => exact (Hand.place_cons_self (hfree.trans hm) _).symm
    · next hm =>
      rw [Bool.not_eq_true, ← hfree] at hm
      rw [List.map_cons, ih, Hand.place_cons_next hm]

theorem hand_offer (g : Group) (word : UInt32) (index : Nat) :
    (g.offer word index).hand = g.hand.place word index := held_offerTo word index g.members

theorem hand_release (g : Group) : g.release.hand = Hand.empty g.patterns := by
  simp only [hand, release, Hand.empty, patterns, List.map_map]
  rfl

theorem full?_held (ms : List Member) : Hand.full? (ms.map Member.held) =
    if ms.all Member.taken then some (ms.map fun m => (m.pattern, m.word)) else none := by
  induction ms with
  | nil => rfl
  | cons m ms ih =>
    rw [List.map_cons, Hand.full?_cons, ih, List.all_cons, Member.held]
    cases m.taken with
    | false => rfl
    | true => cases ms.all Member.taken <;> rfl

theorem full?_hand (g : Group) : g.hand.full? =
    if g.complete then some (g.members.map fun m => (m.pattern, m.word)) else none :=
  full?_held g.members

/-- All bits of the fields of the patterns have room in a hit. -/
structure Readable (g : Group) : Prop where
  faithful : g.Faithful
  bits_le : ∀ part, g.bits part ≤ maxBits

theorem Built.readable {g : Group} (h : g.Built) : g.Readable := ⟨h.faithful, h.bits_le⟩

theorem Readable.of_blank {g g' : Group} (h : g.Readable) (hb : g'.blank = g.blank) :
    g'.Readable :=
  ⟨h.faithful.of_blank hb, fun part => bits_of_blank hb part ▸ h.bits_le part⟩

theorem field_eq_symbol {m : Member} (h : m.Faithful) (part : Part) :
    m.field part = m.pattern.field part.symbol := by
  cases part with
  | address => exact h.1
  | data => exact h.2

/-- No bit of the fields is lost when there is room for all of them. -/
theorem join_eq {part : Part} {ms : List Member} (hf : ∀ m ∈ ms, m.Faithful)
    (hbits : total (ms.map fun m => (m.field part).bits) ≤ 64) :
    (join part ms).toNat = Hand.joined part.symbol (ms.map fun m => (m.pattern, m.word)) := by
  induction ms with
  | nil => rfl
  | cons m ms ih =>
    obtain ⟨hm, hms⟩ := List.forall_mem_cons.1 hf
    rw [List.map_cons, total] at hbits
    have hrest := ih hms (by omega)
    have hlt : (join part ms).toNat < _ := join_lt hms
    have hfield := Field.extract_lt m.pattern part.symbol m.word
    rw [join, List.map_cons, Hand.joined, ← hrest, ← field_eq_symbol hm]
    rw [← field_eq_symbol hm] at hfield
    have hb := m.pattern.bits_field_le part.symbol
    rw [← field_eq_symbol hm] at hb
    generalize (m.field part).bits = b at *
    generalize total (ms.map fun m => (m.field part).bits) = t at hbits hlt
    have hshift : (UInt64.ofNat b).toNat % 64 = b := by
      rw [UInt64.toNat_ofNat']
      omega
    have hfits : (join part ms).toNat * 2 ^ b < 2 ^ 64 := by
      calc (join part ms).toNat * 2 ^ b < 2 ^ t * 2 ^ b :=
            Nat.mul_lt_mul_of_pos_right hlt (Nat.two_pow_pos b)
        _ = 2 ^ (t + b) := (Nat.pow_add 2 t b).symm
        _ ≤ 2 ^ 64 := Nat.pow_le_pow_right (by decide) (by omega)
    rw [UInt64.toNat_or, UInt64.toNat_shiftLeft, hshift, UInt32.toNat_toUInt64, Nat.shiftLeft_eq,
      Nat.mod_eq_of_lt hfits, Nat.or_comm, Nat.mul_comm, ← Nat.two_pow_add_eq_or_of_lt hfield,
      Nat.add_comm]

theorem Readable.hit_eq {g : Group} (h : g.Readable) :
    GroupDecoder.hit g = Hand.pair (g.members.map fun m => (m.pattern, m.word)) := by
  have hdata := join_eq h.faithful (h.bits_le .data)
  rw [GroupDecoder.hit, extract, extract, join_eq h.faithful (h.bits_le .address), Hand.pair,
    ← UInt64.ofNat_toNat (x := join .data g.members), hdata]
  rfl

end Group

namespace GroupDecoder

/-- The hits of words with their positions, and the decoder after them. -/
def run (d : GroupDecoder) : List (UInt32 × Nat) → List Hit × GroupDecoder
  | [] => ([], d)
  | x :: rest =>
    let next := (d.step x.1 x.2).2.run rest
    ((d.step x.1 x.2).1.toList ++ next.1, next.2)

theorem decodeFrom_eq (d : GroupDecoder) (i : Nat) (words : List UInt32) :
    decodeFrom i words d = d.run (words.zipIdx i) := by
  induction words generalizing d i with
  | nil => rfl
  | cons w words ih =>
    rw [decodeFrom, List.zipIdx_cons, run, ← ih]

theorem run_append (d : GroupDecoder) (xs ys : List (UInt32 × Nat)) :
    d.run (xs ++ ys) = ((d.run xs).1 ++ ((d.run xs).2.run ys).1, ((d.run xs).2.run ys).2) := by
  induction xs generalizing d with
  | nil => rfl
  | cons x xs ih => rw [List.cons_append, run, run, ih, List.append_assoc]

theorem decodeAll_eq (d : GroupDecoder) (feeds : List (List UInt32)) :
    (Decoder.group d).decodeAll feeds = (d.run (feeds.flatMap fun words => words.zipIdx)).1 := by
  induction feeds generalizing d with
  | nil => rfl
  | cons words feeds ih =>
    have hwords : (Decoder.group d).decode words =
        ((d.run words.zipIdx).1, .group (d.run words.zipIdx).2, words.length) := by
      rw [Decoder.decode, decodeFrom_eq]
    rw [Decoder.decodeAll, hwords, ih, List.flatMap_cons, run_append]

section Step

variable {d : GroupDecoder} {word : UInt32} {index : Nat}

theorem step_open (hc : ¬ (d.group.offer word index).complete = true) :
    d.step word index = (none, { d with group := d.group.offer word index }) := by
  rw [step]
  simp only [hc, Bool.not_false, if_true]

theorem step_passed (hc : (d.group.offer word index).complete = true)
    (hlast : d.completed + 1 < d.required) : d.step word index =
      (none, { d with
        group := (d.group.offer word index).release
        completed := d.completed + 1 }) := by
  rw [step]
  simp only [hc, Bool.not_true, Bool.false_eq_true, if_false, if_pos hlast]

theorem step_hit (hc : (d.group.offer word index).complete = true)
    (hlast : ¬ d.completed + 1 < d.required) : d.step word index =
      (some (hit (d.group.offer word index)), { d with
        group := (d.group.offer word index).release
        completed := 0 }) := by
  rw [step]
  simp only [hc, Bool.not_true, Bool.false_eq_true, if_false, if_neg hlast]

end Step

/-- Every so many full hands give a hit. Full hands are counted from the last one that gave a hit
on, so only the remainder of their number is known. -/
theorem run_eq {d : GroupDecoder} (hg : d.group.Readable) (hr : 0 < d.required) {n : Nat}
    (hn : d.completed = n % d.required) (offers : List (UInt32 × Nat)) :
    (d.run offers).1 = (Hand.everyNth d.required n
      (Hand.completions d.group.patterns d.group.hand offers)).map Hand.pair := by
  induction offers generalizing d n with
  | nil => rfl
  | cons x offers ih =>
    obtain ⟨word, index⟩ := x
    have hblank : (d.group.offer word index).blank = d.group.blank := d.group.blank_offer word index
    have hreleased := (Group.blank_release (d.group.offer word index)).trans hblank
    have hfull := Group.full?_hand (d.group.offer word index)
    rw [run, Hand.completions, ← Group.hand_offer, hfull]
    by_cases hc : (d.group.offer word index).complete = true
    · have hempty := Group.hand_release (d.group.offer word index)
      rw [Group.patterns_of_blank hblank] at hempty
      have hcounted := Nat.mod_add_mod n d.required 1
      have hlt := Nat.mod_lt n hr
      rw [if_pos hc]
      dsimp only
      rw [Hand.everyNth_cons]
      by_cases hlast : d.completed + 1 < d.required
      · have hmod : d.completed + 1 = (n + 1) % d.required := by
          rw [← hcounted, ← hn, Nat.mod_eq_of_lt hlast]
        have hrest := ih (d := ⟨(d.group.offer word index).release, d.required, d.completed + 1⟩)
          (hg.of_blank hreleased) hr hmod
        dsimp only at hrest
        rw [hempty, Group.patterns_of_blank hreleased] at hrest
        rw [step_passed hc hlast, if_neg (by omega)]
        exact hrest
      · have hmod : 0 = (n + 1) % d.required := by
          have hnext : n % d.required + 1 = d.required := by omega
          rw [← hcounted, hnext, Nat.mod_self]
        have hrest := ih (d := ⟨(d.group.offer word index).release, d.required, 0⟩)
          (hg.of_blank hreleased) hr hmod
        dsimp only at hrest
        rw [hempty, Group.patterns_of_blank hreleased] at hrest
        rw [step_hit hc hlast, if_pos hmod.symm, (hg.of_blank hblank).hit_eq]
        exact congrArg (_ :: ·) hrest
    · rw [if_neg hc]
      have hrest :=
        ih (d := { d with group := d.group.offer word index }) (hg.of_blank hblank) hr hn
      rw [step_open hc]
      rw [Group.patterns_of_blank hblank] at hrest
      exact hrest

end GroupDecoder

namespace Source

variable {g : Group} {required : Nat} {o : SourceOptions} {s : Source} {st : Store}

/-- When an event begins the hand is empty, whatever it was before. -/
theorem decodeAll_restart {d : GroupDecoder} (hg : g.Readable) (hd : d.group.blank = g.blank)
    (hr : 0 < d.required) (feeds : List (List UInt32)) :
    (Decoder.group d).restart.decodeAll feeds =
      (Hand.everyNth d.required 0 (Hand.completions g.patterns (Hand.empty g.patterns)
        (feeds.flatMap fun words => words.zipIdx))).map Hand.pair := by
  have hblank : d.restart.group.blank = g.blank := (Group.blank_release d.group).trans hd
  have hempty : d.restart.group.hand = Hand.empty g.patterns := by
    rw [← Group.patterns_of_blank hd]
    exact d.group.hand_release
  have hrun := GroupDecoder.run_eq (d := d.restart) (hg.of_blank hblank) hr (n := 0)
    (Nat.zero_mod _).symm (feeds.flatMap fun words => words.zipIdx)
  rw [hempty, Group.patterns_of_blank hblank] at hrun
  exact (d.restart.decodeAll_eq feeds).trans hrun

theorem decoder_of_reaches_group (hg : g.Built)
    (h : (SourceRecipe.group g required o).Reaches s st) :
    ∃ d, s.decoder = .group d ∧ d.group.blank = g.blank ∧ d.required = max required 1 := by
  have hblank := h.blank_eq hg
  cases hd : s.decoder with
  | group d =>
    rw [hd] at hblank
    have hsame := Decoder.group.inj hblank
    exact ⟨d, rfl, congrArg GroupDecoder.group hsame, congrArg GroupDecoder.required hsame⟩
  | _ =>
    rw [hd] at hblank
    cases hblank

/-- A source of a group keeps the pairs of the full hands, every so many of them, that are the
first ones of their address: each draws once and is counted, and the later ones leave no trace. -/
theorem completions_kept (hg : g.Built) (h : (SourceRecipe.group g required o).Reaches s st)
    (feeds : List (List UInt32)) :
    let offers := feeds.flatMap fun words => words.zipIdx
    let pairs := (Hand.everyNth (max required 1) 0
      (Hand.completions g.patterns (Hand.empty g.patterns) offers)).map Hand.pair
    let stored := kept (fun _ => 1) pairs
    let after := s.event st feeds
    after.1.dither = ditherAfter s.plain s.dither stored.length ∧
    (∀ x ∈ pairs, x.address < s.addressCount) ∧
    ∃ p, s.outputs = [p] ∧ p.length = s.addressCount ∧ ∀ a < s.addressCount,
      (pairs.find? (fun x => x.address = a) = none →
        after.2.get p.data a = Value.invalid ∧
        after.2.get s.hitCounts a = st.get s.hitCounts a) ∧
      ∀ x, pairs.find? (fun x => x.address = a) = some x →
        after.2.get s.hitCounts a = st.get s.hitCounts a + Value.one ∧
        ∃ i, stored[i]? = some x ∧ after.2.get p.data a =
          (spread s.plain (ditherAfter s.plain s.dither i) x.value).1 := by
  intro offers pairs stored after
  obtain ⟨d, hd, hblank, hrequired⟩ := decoder_of_reaches_group hg h
  have hseated := h.seated hg
  obtain ⟨helements, hcounts, hdither⟩ := event_eq hseated feeds
  have hpairs : s.decoder.restart.decodeAll feeds = pairs := by
    rw [hd, decodeAll_restart hg.readable hblank (by omega), hrequired]
  have hdepth : s.decoder.depth = 1 := by rw [hd]; rfl
  have hall : s.countsAll = false := by rw [countsAll, hd]
  have hcell : ∀ a, s.cell a 0 = (0, a) := fun a => by rw [cell, hd]; rfl
  rw [hpairs, hdepth] at helements hdither
  rw [hpairs, hdepth, hall] at hcounts
  have hinside := hseated.address_lt feeds
  rw [hpairs] at hinside
  obtain ⟨p, houtputs, hlength⟩ : ∃ p, s.outputs = [p] ∧ p.length = s.addressCount := by
    have harr := hseated.inRange.shaped.arranged
    rw [hd] at harr
    rwa [addressCount, hd]
  refine ⟨hdither, hinside, p, houtputs, hlength, fun a ha => ?_⟩
  obtain ⟨q, hq, -, hx⟩ := helements a ha 0 Nat.zero_lt_one
  rw [hcell] at hq hx
  obtain rfl : p = q := by
    rw [houtputs] at hq
    exact Option.some.inj hq
  obtain ⟨hnone, hsome⟩ := hx
  have hcount := hcounts a ha
  have hof : hitsOf a stored = (hitsOf a pairs).take 1 := hitsOf_kept (fun _ => 1) pairs a
  rw [if_neg Bool.false_ne_true, hof] at hcount
  have hfirst : pairs.find? (fun x => x.address = a) = (hitsOf a pairs)[0]? := by
    rw [hitsOf, ← List.head?_eq_getElem?, List.head?_filter]
  rw [hfirst]
  refine ⟨fun hempty => ?_, fun x hx => ?_⟩
  · rw [List.getElem?_eq_none_iff] at hempty
    refine ⟨hnone hempty, ?_⟩
    rw [hcount, List.eq_nil_of_length_eq_zero (Nat.le_zero.1 hempty)]
    rfl
  · obtain ⟨i, hi, -, hvalue⟩ := hsome x hx
    obtain ⟨hlt, -⟩ := List.getElem?_eq_some_iff.1 hx
    refine ⟨?_, i, hi, hvalue⟩
    rw [hcount, List.length_take, Nat.min_eq_left hlt]
    rfl

/-- One bit of a word tells its pattern, two others are its address and its data. -/
def marked (mark : Symbol) : Pattern :=
  Pattern.ofSymbols [mark, .address, .data] (Nat.le_of_ble_eq_true rfl) (-1)

/-- The second pair of an address leaves no trace, nor does a word that no pattern waits for. -/
theorem completions_kept_marked :
    let g : Group := ⟨[.ofPattern (marked .zero), .ofPattern (marked .one)]⟩
    g.Built ∧ ∃ s st, (SourceRecipe.group g 1 ⟨0, 0, false⟩).Reaches s st ∧ ∃ p, s.outputs = [p] ∧
      let after := s.event st [[2, 0], [5, 3, 4]]
      after.2.get s.hitCounts 1 = st.get s.hitCounts 1 + Value.one ∧
      after.1.dither = ditherAfter s.plain s.dither 1 ∧
      ∃ i, after.2.get p.data 1 = (spread s.plain (ditherAfter s.plain s.dither i) 2).1 := by
  intro g
  have hadd : [marked .zero, marked .one].foldlM Group.add Group.empty = .ok g := rfl
  have hg : g.Built := Group.Built.empty.ofPatterns hadd
  obtain ⟨s, b, hmake⟩ : ∃ s b, (SourceRecipe.group g 1 ⟨0, 0, false⟩).make (Arena.new 1024) =
      (.ok s, b) := SourceRecipe.exists_make (by decide +kernel)
  have hreach : (SourceRecipe.group g 1 ⟨0, 0, false⟩).Reaches s b.store :=
    .make (Arena.sized_new 1024) hmake
  obtain ⟨hdither, -, p, hp, hlength, hpairs⟩ := completions_kept hg hreach [[2, 0], [5, 3, 4]]
  have hcount : s.addressCount = 4 := (hreach.addressCount_eq hg).trans (by decide +kernel)
  obtain ⟨-, hfirst⟩ := hpairs 1 (by rw [hcount]; decide)
  obtain ⟨htallied, i, -, hx⟩ := hfirst ⟨1, 2⟩ (by decide +kernel)
  exact ⟨hg, s, b.store, hreach, p, hp, htallied,
    hdither.trans (congrArg (ditherAfter s.plain s.dither) (by decide +kernel)), i, hx⟩

end Source

end Readout
