import Readout.Proofs.Checked.Source
import Readout.Proofs.Operator.Tally
import Readout.Proofs.Source.HitTable
import Readout.Proofs.Source.Limits

/-!
# Storing hits

A source whose spans do not share slots keeps hits as a table does (`Holds.feed`), in either of the
arrangements of its outputs. Nothing that the source is asked tells the two arrangements apart.
-/
namespace Readout

namespace Decoder

/-- How many hits of one address are stored. -/
def depth : Decoder → Nat
  | word d => d.maxHits
  | _ => 1

/-- The elements of an address lie across the outputs, or else in an output of their own. -/
def across : Decoder → Bool
  | word d => d.shape = .perHit
  | _ => true

/-- Only groups of patterns have traces of a run to lose. -/
theorem eq_of_blank {d e : Decoder} (he : ∀ g, e ≠ group g) (h : d.blank = e) : d = e := by
  cases d with
  | group g => exact absurd h.symm (he g.blank)
  | _ => exact h

theorem Faithful.of_blank {d d' : Decoder} (h : d.Faithful) (hb : d'.blank = d.blank) :
    d'.Faithful := by
  rw [← faithful_blank, hb, faithful_blank]
  exact h

theorem addressCount_of_blank {d d' : Decoder} (hb : d'.blank = d.blank) :
    d'.addressCount = d.addressCount := by
  rw [← Source.addressCount_blank, hb, Source.addressCount_blank]

end Decoder

namespace Source

def rules (s : Source) : HitRules := ⟨s.decoder.depth, s.countsAll, s.plain⟩

/-- Element `k` of an address: the number of its output and its place there. -/
def cell (s : Source) (a k : Nat) : Nat × Nat := if s.decoder.across then (k, a) else (a, k)

def place (s : Source) (a k : Nat) : Span × Nat :=
  (((s.outputs[(s.cell a k).1]?).map Pipe.data).getD default, (s.cell a k).2)

/-- The table that a source and its store keep. -/
structure Holds (s : Source) (store : Store) (t : HitTable) : Prop where
  dither_eq : s.dither = t.dither
  element_eq : ∀ a < s.decoder.addressCount, ∀ k < s.decoder.depth,
    store.get (s.place a k).1 (s.place a k).2 = t.element a k
  count_eq : ∀ a < s.decoder.addressCount, store.get s.hitCounts a = t.count a

section Cells

theorem Arranged.lengths {d : Decoder} {outputs : List Pipe} (h : Arranged d outputs) :
    outputs.length = (if d.across then d.depth else d.addressCount) ∧
      ∀ p ∈ outputs, p.length = if d.across then d.addressCount else d.depth := by
  cases d with
  | word d =>
    rw [Arranged] at h
    cases hshape : d.shape with
    | perHit =>
      rw [hshape] at h
      simpa [Decoder.across, Decoder.depth, hshape] using h
    | perAddress =>
      rw [hshape] at h
      simpa [Decoder.across, Decoder.depth, hshape] using h
  | _ =>
    obtain ⟨p, rfl, hlength⟩ := h
    exact ⟨rfl, List.forall_mem_singleton.2 hlength⟩

variable {s s' : Source}

theorem cell_inj {a b j k : Nat} (h : s.cell a j = s.cell b k) : a = b ∧ j = k := by
  rw [cell, cell] at h
  split at h
  · exact (Prod.mk.inj h).symm
  · exact Prod.mk.inj h

theorem Shaped.place_eq (h : s.Shaped) {a k : Nat} (ha : a < s.decoder.addressCount)
    (hk : k < s.decoder.depth) : ∃ p, s.outputs[(s.cell a k).1]? = some p ∧
      (s.cell a k).2 < p.length ∧ s.place a k = (p.data, (s.cell a k).2) := by
  obtain ⟨hcount, hlength⟩ := h.arranged.lengths
  have hx : (s.cell a k).1 < s.outputs.length := by
    rw [cell, hcount]
    split <;> assumption
  refine ⟨_, List.getElem?_eq_getElem hx, ?_, ?_⟩
  · rw [hlength _ (List.getElem_mem hx), cell]
    split <;> assumption
  · rw [place, List.getElem?_eq_getElem hx]
    rfl

theorem places_of_across (hx : s.decoder.across = true) (a : Nat) :
    s.places a = s.outputs.map fun p => (p.data, a) := by
  rw [places]
  cases hd : s.decoder with
  | word d =>
    rw [hd, Decoder.across, decide_eq_true_eq] at hx
    simp only [hx]
  | _ => rfl

theorem places_of_inside (hx : s.decoder.across = false) {a : Nat} (ha : a < s.outputs.length) :
    s.places a = (List.range s.outputs[a].length).map fun i => (s.outputs[a].data, i) := by
  rw [places]
  cases hd : s.decoder with
  | word d =>
    rw [hd, Decoder.across, decide_eq_false_iff_not] at hx
    cases hshape : d.shape with
    | perHit => exact absurd hshape hx
    | perAddress => simp only [hshape, List.getElem?_eq_getElem ha]
  | _ =>
    rw [hd] at hx
    cases hx

/-- The elements of an address in the order in which hits take them. -/
theorem Shaped.places_eq (h : s.Shaped) {a : Nat} (ha : a < s.decoder.addressCount) :
    s.places a = (List.range s.decoder.depth).map (s.place a) := by
  obtain ⟨hcount, hlength⟩ := h.arranged.lengths
  cases hx : s.decoder.across with
  | true =>
    rw [hx, if_pos rfl] at hcount
    rw [places_of_across hx, ← hcount]
    refine List.ext_getElem (by simp) fun k hk _ => ?_
    have hk : k < s.outputs.length := by simpa using hk
    simp [place, cell, hx, hk]
  | false =>
    rw [hx, if_neg (by decide)] at hcount hlength
    have hlt : a < s.outputs.length := hcount.symm ▸ ha
    rw [places_of_inside hx hlt, hlength _ (List.getElem_mem hlt)]
    refine List.map_congr_left fun k _ => ?_
    simp [place, cell, hx, hlt]

end Cells

section Resting

variable {s s' : Source}

theorem addressCount_of_resting (hr : s'.resting = s.resting) :
    s'.decoder.addressCount = s.decoder.addressCount :=
  Decoder.addressCount_of_blank (congrArg decoder hr)

theorem rules_resting (s : Source) : s.resting.rules = s.rules := by
  obtain ⟨outputs, hitCounts, moduleIndex, decoder, dither, plain⟩ := s
  cases decoder <;> rfl

theorem rules_of_resting (hr : s'.resting = s.resting) : s'.rules = s.rules := by
  rw [← rules_resting, hr, rules_resting]

theorem place_resting (s : Source) : s.resting.place = s.place := by
  obtain ⟨outputs, hitCounts, moduleIndex, decoder, dither, plain⟩ := s
  cases decoder <;> rfl

theorem place_of_resting (hr : s'.resting = s.resting) : s'.place = s.place := by
  rw [← place_resting, hr, place_resting]

end Resting

/-- A source whose spans lie in a store with so many slots, no two of them in one slot. -/
structure Seated (slots : Nat) (s : Source) : Prop where
  inRange : s.InRange slots
  apart : s.owned.Pairwise Span.Apart

variable {slots : Nat} {s s' : Source} {store : Store} {t : HitTable}

namespace Seated

theorem of_resting (h : s.Seated slots) (hr : s'.resting = s.resting) : s'.Seated slots := by
  have howned : s'.owned = s.owned := by simpa only [resting, owned] using congrArg owned hr
  exact ⟨h.inRange.of_resting hr, howned ▸ h.apart⟩

theorem outputs_apart (h : s.Seated slots) :
    s.outputs.Pairwise fun p q => p.data.Apart q.data := by
  obtain ⟨hpipes, -, -⟩ := List.pairwise_append.1 h.apart
  exact (List.pairwise_flatMap.1 hpipes).2.imp fun hpq =>
    hpq _ (Pipe.data_mem_spans _) _ (Pipe.data_mem_spans _)

theorem counts_apart (h : s.Seated slots) {p : Pipe} (hp : p ∈ s.outputs) :
    p.data.Apart s.hitCounts := by
  obtain ⟨-, -, hcounts⟩ := List.pairwise_append.1 h.apart
  exact hcounts _ (List.mem_flatMap.2 ⟨p, hp, p.data_mem_spans⟩) _ (List.mem_singleton_self _)

/-- Elements in one slot are one element of one output. -/
theorem element_inj (h : s.Seated slots) {x y i j : Nat} {p q : Pipe} (hp : s.outputs[x]? = some p)
    (hq : s.outputs[y]? = some q) (hi : i < p.length) (hj : j < q.length)
    (heq : p.data.offset + i = q.data.offset + j) : x = y ∧ i = j := by
  obtain ⟨hx, rfl⟩ := List.getElem?_eq_some_iff.1 hp
  obtain ⟨hy, rfl⟩ := List.getElem?_eq_some_iff.1 hq
  have hpairs := List.pairwise_iff_getElem.1 h.outputs_apart
  have hin : s.outputs[x].data.offset + i ∈ s.outputs[x].data :=
    ⟨by omega, Nat.add_lt_add_left hi _⟩
  have hin' : s.outputs[x].data.offset + i ∈ s.outputs[y].data :=
    heq ▸ ⟨by omega, Nat.add_lt_add_left hj _⟩
  rcases Nat.lt_trichotomy x y with hlt | rfl | hlt
  · exact absurd hin' (hpairs x y hx hy hlt _ hin)
  · exact ⟨rfl, by omega⟩
  · exact absurd hin (hpairs y x hy hx hlt _ hin')

section Places

variable {a b j k : Nat}

theorem place_fits (h : s.Seated slots) (ha : a < s.decoder.addressCount)
    (hk : k < s.decoder.depth) :
    (s.place a k).2 < (s.place a k).1.length ∧ (s.place a k).1.stop ≤ slots ∧
      (s.place a k).1.Apart s.hitCounts := by
  obtain ⟨p, hp, hlt, hplace⟩ := h.inRange.shaped.place_eq ha hk
  have hmem := List.mem_of_getElem? hp
  rw [hplace]
  exact ⟨hlt, h.inRange.output_stop_le hmem, h.counts_apart hmem⟩

theorem place_inj (h : s.Seated slots) (ha : a < s.decoder.addressCount)
    (hb : b < s.decoder.addressCount) (hj : j < s.decoder.depth) (hk : k < s.decoder.depth)
    (heq : (s.place a j).1.offset + (s.place a j).2 = (s.place b k).1.offset + (s.place b k).2) :
    a = b ∧ j = k := by
  obtain ⟨p, hp, hi, hplace⟩ := h.inRange.shaped.place_eq ha hj
  obtain ⟨q, hq, hi', hplace'⟩ := h.inRange.shaped.place_eq hb hk
  rw [hplace, hplace'] at heq
  obtain ⟨houtput, hindex⟩ := h.element_inj hp hq hi hi' heq
  exact cell_inj (Prod.ext houtput hindex)

end Places

theorem get_beginEvent (h : s.Seated store.slots) {p : Pipe} (hp : p ∈ s.outputs) {i : Nat}
    (hi : i < p.length) : (s.beginEvent store).2.get p.data i = Value.invalid := by
  have hsame : ∀ x ∈ s.outputs.map fun p => (p.data, Value.invalid), x.2 = Value.invalid :=
    List.forall_mem_map.2 fun _ _ => rfl
  have hvalues : (s.beginEvent store).2.values p.data =
      List.replicate p.data.length Value.invalid := by
    rw [beginEvent_store]
    refine Store.values_fillAll hsame ?_ (h.inRange.output_stop_le hp)
    rw [List.map_map]
    exact List.mem_map_of_mem hp
  have hget : (s.beginEvent store).2.get p.data i ∈ (s.beginEvent store).2.values p.data :=
    List.mem_map_of_mem (List.mem_range.2 hi)
  rw [hvalues] at hget
  exact List.eq_of_mem_replicate hget

end Seated

namespace Holds

theorem of_resting (h : s.Holds store t) (hr : s'.resting = s.resting)
    (hd : s'.dither = s.dither) : s'.Holds store t := by
  have hdepth : s'.decoder.depth = s.decoder.depth := congrArg HitRules.depth (rules_of_resting hr)
  have hcounts : s'.hitCounts = s.hitCounts := by simpa only [resting] using congrArg hitCounts hr
  refine ⟨hd.trans h.dither_eq, ?_, ?_⟩
  · rw [addressCount_of_resting hr, hdepth, place_of_resting hr]
    exact h.element_eq
  · rw [addressCount_of_resting hr, hcounts]
    exact h.count_eq

theorem tally (hs : s.Seated store.slots) (h : s.Holds store t) {a : Nat}
    (ha : a < s.decoder.addressCount) :
    s.Holds (store.increment s.hitCounts a) (t.tally a) where
  dither_eq := h.dither_eq
  element_eq b hb k hk := by
    obtain ⟨hlt, -, hapart⟩ := hs.place_fits hb hk
    have hagree := store.agree_increment (P := (· ∈ (s.place b k).1)) (i := a)
      hapart.symm
    have hslot := hagree.get_eq ⟨Nat.le_add_right _ _, Nat.add_lt_add_left hlt _⟩
    exact hslot.symm.trans (h.element_eq b hb k hk)
  count_eq b hb := by
    have hlength := hs.inRange.shaped.counts
    have hstop := hs.inRange.counts_stop_le
    rw [Span.stop] at hstop
    rw [Store.get, Store.read_increment]
    by_cases hba : b = a
    · subst hba
      rw [if_pos ⟨by omega, rfl, by omega⟩, HitTable.count_tally_self]
      exact congrArg (· + Value.one) (h.count_eq b hb)
    · have hmiss : ¬ s.hitCounts.Hits a store.slots (s.hitCounts.offset + b) := by
        rintro ⟨-, heq, -⟩
        omega
      rw [if_neg hmiss, HitTable.count_tally_of_ne t hba]
      exact h.count_eq b hb

theorem put (hs : s.Seated store.slots) (h : s.Holds store t) {a k : Nat}
    (ha : a < s.decoder.addressCount) (hk : k < s.decoder.depth) (v : Value) :
    s.Holds (store.set (s.place a k).1 (s.place a k).2 v) (t.put a k v) := by
  obtain ⟨hlt, hstop, hapart⟩ := hs.place_fits ha hk
  rw [Span.stop] at hstop
  have hin : (s.place a k).1.offset + (s.place a k).2 < store.slots := by omega
  refine ⟨h.dither_eq, fun b hb j hj => ?_, fun b hb => ?_⟩
  · rw [Store.set, if_pos hlt, Store.get, Store.read_write _ _ _ hin]
    by_cases heq : a = b ∧ k = j
    · obtain ⟨rfl, rfl⟩ := heq
      rw [if_pos rfl, HitTable.element_put_self]
    · rw [if_neg fun h => heq (hs.place_inj ha hb hk hj h), HitTable.element_put_of_ne]
      · exact h.element_eq b hb j hj
      · omega
  · have hcount : s.hitCounts.offset + b ∈ s.hitCounts := by
      have hlength := hs.inRange.shaped.counts
      exact ⟨by omega, by omega⟩
    have hagree := store.agree_set (P := (· ∈ s.hitCounts)) (i := (s.place a k).2) v hapart
    exact (hagree.get_eq hcount).symm.trans (h.count_eq b hb)

/-- The element that a hit takes has the lowest number of those that are free. -/
theorem find_free (hs : s.Shaped) (h : s.Holds store t) {a : Nat}
    (ha : a < s.decoder.addressCount) :
    (s.places a).find? (fun (p, i) => !(store.get p i).isValid) =
      (t.free s.rules a).head?.map (s.place a) := by
  rw [hs.places_eq ha, List.find?_map, HitTable.free, List.head?_filter]
  refine congrArg (Option.map (s.place a)) (List.find?_congr fun k hk => ?_)
  exact congrArg (fun v => !v.isValid) (h.element_eq a ha k (List.mem_range.1 hk))

theorem record (hs : s.Seated store.slots) (h : s.Holds store t) {hit : Hit}
    (ha : hit.address < s.decoder.addressCount) :
    (s.record store hit).1.Holds (s.record store hit).2 (t.record s.rules hit) := by
  have htally := h.tally hs ha
  have hfind := h.find_free hs.inRange.shaped ha
  rw [Source.record]
  dsimp only
  cases hf : t.free s.rules hit.address with
  | nil =>
    rw [hf] at hfind
    rw [hfind, HitTable.record_full hf]
    simp only [List.head?_nil, Option.map_none, Option.isSome_none, Bool.or_false]
    change s.Holds (if s.countsAll then _ else _) (if s.countsAll then _ else _)
    split
    · exact htally
    · exact h
  | cons k ks =>
    have hk : k < s.decoder.depth := (HitTable.mem_free.1 (hf ▸ List.mem_cons_self)).1
    rw [hf] at hfind
    rw [hfind]
    simp only [List.head?_cons, Option.map_some, Option.isSome_some, Bool.or_true, if_true]
    have hseated : s.Seated (store.increment s.hitCounts hit.address).slots :=
      (store.slots_increment _ _).symm ▸ hs
    have hput := htally.put hseated ha hk (spread s.plain s.dither hit.value).1
    have hdither : s.dither = t.dither := h.dither_eq
    rw [HitTable.record_first hf, ← hdither]
    exact ⟨spread_snd s.plain s.dither hit.value, hput.element_eq, hput.count_eq⟩

theorem recordAll (hs : s.Seated store.slots) (h : s.Holds store t) {hits : List Hit}
    (ha : ∀ hit ∈ hits, hit.address < s.decoder.addressCount) :
    (s.recordAll store hits).1.Holds (s.recordAll store hits).2 (t.recordAll s.rules hits) := by
  induction hits generalizing s store t with
  | nil => exact h
  | cons hit hits ih =>
    obtain ⟨hhit, hhits⟩ := List.forall_mem_cons.1 ha
    have hr := s.resting_record store hit
    have hseated : (s.record store hit).1.Seated (s.record store hit).2.slots := by
      rw [slots_record]
      exact hs.of_resting hr
    rw [recordAll_cons, HitTable.recordAll_cons, ← rules_of_resting hr]
    refine ih hseated ?_ fun k hk => ?_
    · rw [rules_of_resting hr]
      exact h.record hs hhit
    · rw [addressCount_of_resting hr]
      exact hhits k hk

theorem feed (hs : s.Seated store.slots) (h : s.Holds store t) (words : List UInt32) :
    (s.feed store words).1.Holds (s.feed store words).2.1
      (t.recordAll s.rules (s.decoder.decode words).1) := by
  have hr : resting { s with decoder := (s.decoder.decode words).2.1 } = s.resting := by
    simp only [resting, Decoder.blank_decode]
  have hfed : Holds { s with decoder := (s.decoder.decode words).2.1 } store t :=
    h.of_resting hr rfl
  rw [← rules_of_resting hr]
  refine hfed.recordAll (hs.of_resting hr) fun hit hm => ?_
  rw [addressCount_of_resting hr]
  exact hs.inRange.faithful.address_lt words hit hm

theorem beginEvent (hs : s.Seated store.slots) (h : s.Holds store t) :
    (s.beginEvent store).1.Holds (s.beginEvent store).2 t.renew := by
  have hnew : s.Holds (s.beginEvent store).2 t.renew := by
    refine ⟨h.dither_eq, fun a ha k hk => ?_, fun a ha => ?_⟩
    · obtain ⟨p, hp, hlt, hplace⟩ := hs.inRange.shaped.place_eq ha hk
      rw [hplace]
      exact hs.get_beginEvent (List.mem_of_getElem? hp) hlt
    · have hlength := hs.inRange.shaped.counts
      have hagree : store.AgreeOn (· ∈ s.hitCounts) (s.beginEvent store).2 := by
        rw [beginEvent_store]
        exact store.agree_fillAll (List.forall_mem_map.2 fun p hp => hs.counts_apart hp)
      have hslot := hagree.get_eq (p := s.hitCounts) (i := a) ⟨by omega, by omega⟩
      exact hslot.symm.trans (h.count_eq a ha)
  exact hnew.of_resting (s.resting_beginEvent store) rfl

theorem beginRun (hs : s.Seated store.slots) (h : s.Holds store t) :
    s.Holds (s.beginRun store) { t with count := fun _ => Value.zero } := by
  refine ⟨h.dither_eq, fun a ha k hk => ?_, fun a ha => ?_⟩
  · obtain ⟨hlt, -, hapart⟩ := hs.place_fits ha hk
    have hagree := store.agree_fill (P := (· ∈ (s.place a k).1)) Value.zero hapart.symm
    have hslot := hagree.get_eq ⟨Nat.le_add_right _ _, Nat.add_lt_add_left hlt _⟩
    exact hslot.symm.trans (h.element_eq a ha k hk)
  · exact store.get_fill Value.zero (hs.inRange.shaped.counts.symm ▸ ha) hs.inRange.counts_stop_le

end Holds

end Source

end Readout
