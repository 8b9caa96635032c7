import Readout.Proofs.Checked.Access
import Readout.Proofs.Source.Addresses

/-!
# Checked sources

A checked source takes its outputs from their list by number and looks at each access: the first
output of a group or a packing, the output or the element of the address of a hit, and the count of
this address. No hit has an address for which there is no room.
-/
namespace Readout

namespace Store

/-- The first element of a list that holds no valid value. -/
def firstFree? (s : Store) : List (Span × Nat) → Option (Option (Span × Nat))
  | [] => some none
  | (p, i) :: rest => do
    s.view? [p]
    let v ← s.load? p i
    if v.isValid then s.firstFree? rest else some (some (p, i))

end Store

namespace Source

def places? (s : Source) (address : Nat) : Option (List (Span × Nat)) :=
  match s.decoder with
  | .word d =>
    match d.shape with
    | .perHit => some (s.outputs.map fun p => (p.data, address))
    | .perAddress => do
      let p ← s.outputs[address]?
      return (List.range p.length).map fun i => (p.data, i)
  | _ => do
    let p ← s.outputs[0]?
    return [(p.data, address)]

def record? (s : Source) (store : Store) (h : Hit) : Option (Source × Store) := do
  let free ← store.firstFree? (← s.places? h.address)
  let store ← if s.countsAll || free.isSome then store.increment? s.hitCounts h.address
    else some store
  match free with
  | none => return (s, store)
  | some (p, i) =>
    let (v, dither) := spread s.plain s.dither h.value
    return ({ s with dither := dither }, ← store.save? p i v)

def recordAll? (s : Source) (store : Store) : List Hit → Option (Source × Store)
  | [] => some (s, store)
  | h :: rest => do
    let (s, store) ← s.record? store h
    s.recordAll? store rest

/-- Whether there are hits or not, the counts and the only output of a group or a packing have to
be there. -/
def ready? (s : Source) (store : Store) : Option Unit :=
  match s.decoder with
  | .word _ => store.view? [s.hitCounts]
  | _ => do store.view? [s.hitCounts, (← s.outputs[0]?).data]

def feed? (s : Source) (store : Store) (words : List UInt32) : Option (Source × Store × Nat) := do
  s.ready? store
  let (hits, decoder, used) := s.decoder.decode words
  let (s, store) ← { s with decoder := decoder }.recordAll? store hits
  return (s, store, used)

def beginRun? (s : Source) (store : Store) : Option Store := do
  store.view? [s.hitCounts]
  return s.beginRun store

def beginEvent? (s : Source) (store : Store) : Option (Source × Store) := do
  store.view? (s.outputs.map Pipe.data)
  return s.beginEvent store

/-- A source that its maker has arranged, in a store with so many slots. -/
structure InRange (slots : Nat) (s : Source) : Prop where
  shaped : s.Shaped
  fits : ∀ p ∈ s.owned, p.stop ≤ slots
  faithful : s.decoder.Faithful

theorem addressBits_blank (d : Decoder) : d.blank.addressBits = d.addressBits := by
  cases d with
  | group d => exact d.group.bits_blank .address
  | _ => rfl

theorem addressCount_blank (d : Decoder) : d.blank.addressCount = d.addressCount :=
  congrArg Word.size (addressBits_blank d)

theorem arranged_blank (d : Decoder) (outputs : List Pipe) :
    Arranged d.blank outputs ↔ Arranged d outputs := by
  have hcount := addressCount_blank d
  cases d with
  | group d =>
    change (∃ p, outputs = [p] ∧ p.length = (Decoder.group d).blank.addressCount) ↔ _
    rw [hcount]
    exact Iff.rfl
  | _ => exact Iff.rfl

theorem shaped_resting (s : Source) : s.resting.Shaped ↔ s.Shaped := by
  have hcount := addressCount_blank s.decoder
  have hbits := addressBits_blank s.decoder
  have harr := arranged_blank s.decoder s.outputs
  constructor
  · rintro ⟨hc, hb, ha⟩
    exact ⟨hc.trans hcount, hbits ▸ hb, harr.1 ha⟩
  · rintro ⟨hc, hb, ha⟩
    exact ⟨hc.trans hcount.symm, hbits.symm ▸ hb, harr.2 ha⟩

namespace InRange

variable {slots : Nat} {src src' : Source} {s : Store} {h : Hit}

theorem map_resting : InRange slots src.resting ↔ InRange slots src := by
  constructor
  · rintro ⟨hs, hf, hx⟩
    exact ⟨src.shaped_resting.1 hs, hf, src.decoder.faithful_blank.1 hx⟩
  · rintro ⟨hs, hf, hx⟩
    exact ⟨src.shaped_resting.2 hs, hf, src.decoder.faithful_blank.2 hx⟩

theorem of_resting (h : InRange slots src) (hr : src'.resting = src.resting) :
    InRange slots src' := by
  rw [← map_resting, hr, map_resting]
  exact h

theorem output_stop_le (hin : InRange slots src) {p : Pipe} (hp : p ∈ src.outputs) :
    p.data.stop ≤ slots :=
  hin.fits _ (List.mem_append_left _ (List.mem_flatMap.2 ⟨p, hp, p.data_mem_spans⟩))

theorem counts_stop_le (hin : InRange slots src) : src.hitCounts.stop ≤ slots :=
  hin.fits _ (List.mem_append_right _ (List.mem_singleton_self _))

theorem places?_eq (hin : InRange slots src) {address : Nat}
    (ha : address < src.decoder.addressCount) :
    src.places? address = some (src.places address) ∧
      ∀ q ∈ src.places address, q.2 < q.1.length ∧ q.1.stop ≤ slots := by
  have harr := hin.shaped.arranged
  have hsingle : ∀ {p : Pipe}, src.outputs = [p] → p.length = src.decoder.addressCount →
      ∀ q ∈ src.outputs.map fun p => (p.data, address), q.2 < q.1.length ∧ q.1.stop ≤ slots := by
    intro p hp hl q hq
    obtain ⟨v, hv, rfl⟩ := List.mem_map.1 hq
    refine ⟨?_, hin.output_stop_le hv⟩
    rw [hp, List.mem_singleton] at hv
    rw [hv]
    exact Nat.lt_of_lt_of_eq ha hl.symm
  rw [places?, places]
  cases hd : src.decoder with
  | group d =>
    rw [hd] at harr
    obtain ⟨p, hp, hl⟩ := harr
    refine ⟨?_, hsingle hp (hd ▸ hl)⟩
    rw [hp]
    rfl
  | packed d =>
    rw [hd] at harr
    obtain ⟨p, hp, hl⟩ := harr
    refine ⟨?_, hsingle hp (hd ▸ hl)⟩
    rw [hp]
    rfl
  | word d =>
    rw [hd, Arranged] at harr
    rw [hd] at ha
    dsimp only
    cases hs : d.shape with
    | perHit =>
      rw [hs] at harr
      refine ⟨rfl, fun q hq => ?_⟩
      obtain ⟨v, hv, rfl⟩ := List.mem_map.1 hq
      exact ⟨Nat.lt_of_lt_of_eq ha (harr.2 v hv).symm, hin.output_stop_le hv⟩
    | perAddress =>
      rw [hs] at harr
      have hlt : address < src.outputs.length := harr.1.symm ▸ ha
      have hmem : src.outputs[address] ∈ src.outputs := List.getElem_mem hlt
      simp only [List.getElem?_eq_getElem hlt, Option.bind_eq_bind, Option.bind_some]
      refine ⟨rfl, fun q hq => ?_⟩
      obtain ⟨k, hk, rfl⟩ := List.mem_map.1 hq
      exact ⟨List.mem_range.1 hk, hin.output_stop_le hmem⟩

theorem firstFree?_eq {places : List (Span × Nat)}
    (hp : ∀ q ∈ places, q.2 < q.1.length ∧ q.1.stop ≤ s.slots) :
    s.firstFree? places = some (places.find? fun q => !(s.get q.1 q.2).isValid) := by
  induction places with
  | nil => rfl
  | cons q places ih =>
    obtain ⟨⟨hlt, hstop⟩, hrest⟩ := List.forall_mem_cons.1 hp
    have hview : s.view? [q.1] = some () := Store.view?_eq (List.forall_mem_singleton.2 hstop)
    obtain ⟨p, i⟩ := q
    simp only [Store.firstFree?, hview, Store.load?_eq hlt, Option.bind_eq_bind, Option.bind_some,
      List.find?_cons]
    cases (s.get p i).isValid with
    | true => exact ih hrest
    | false => rfl

theorem record?_eq (hin : InRange s.slots src) (ha : h.address < src.decoder.addressCount) :
    src.record? s h = some (src.record s h) := by
  obtain ⟨hplaces, hfit⟩ := hin.places?_eq ha
  have hcount : h.address < src.hitCounts.length := hin.shaped.counts.symm ▸ ha
  have hfree := firstFree?_eq hfit
  rw [record?, hplaces, record]
  simp only [Option.bind_eq_bind, Option.bind_some, hfree, Store.increment?_eq hcount]
  cases hf : (src.places h.address).find? fun q => !(s.get q.1 q.2).isValid with
  | none =>
    cases src.countsAll <;> rfl
  | some q =>
    obtain ⟨hlt, -⟩ := hfit q (List.mem_of_find?_eq_some hf)
    simp only [Option.isSome_some, Bool.or_true, if_true, Option.bind_some, Store.save?_eq _ hlt]
    rfl

theorem recordAll?_eq (hin : InRange s.slots src) (hits : List Hit)
    (ha : ∀ h ∈ hits, h.address < src.decoder.addressCount) :
    src.recordAll? s hits = some (src.recordAll s hits) := by
  induction hits generalizing src s with
  | nil => rfl
  | cons h hits ih =>
    obtain ⟨hh, hhits⟩ := List.forall_mem_cons.1 ha
    have hnext : InRange (src.record s h).2.slots (src.record s h).1 := by
      rw [src.slots_record s h]
      exact hin.of_resting (src.resting_record s h)
    have hcount : (src.record s h).1.decoder.addressCount = src.decoder.addressCount := by
      rw [← addressCount_blank, ← addressCount_blank src.decoder]
      exact congrArg (fun t => t.decoder.addressCount) (src.resting_record s h)
    rw [recordAll?, hin.record?_eq hh]
    simp only [Option.bind_eq_bind, Option.bind_some]
    exact ih hnext fun k hk => hcount.symm ▸ hhits k hk

theorem ready?_eq (hin : InRange s.slots src) : src.ready? s = some () := by
  have harr := hin.shaped.arranged
  have hsingle : ∀ {p : Pipe}, src.outputs = [p] →
      (do s.view? [src.hitCounts, (← src.outputs[0]?).data]) = some () := by
    intro p hp
    have hmem : p ∈ src.outputs := hp ▸ List.mem_singleton_self p
    have hview : s.view? [src.hitCounts, p.data] = some () := Store.view?_eq <|
      List.forall_mem_cons.2
        ⟨hin.counts_stop_le, List.forall_mem_singleton.2 (hin.output_stop_le hmem)⟩
    rw [hp]
    exact hview
  rw [ready?]
  cases hd : src.decoder with
  | word d => exact Store.view?_eq (List.forall_mem_singleton.2 hin.counts_stop_le)
  | group d =>
    rw [hd] at harr
    obtain ⟨p, hp, -⟩ := harr
    exact hsingle hp
  | packed d =>
    rw [hd] at harr
    obtain ⟨p, hp, -⟩ := harr
    exact hsingle hp

/-- Whatever the words are, a source finds an element and a count for each hit. -/
theorem feed?_eq (hin : InRange s.slots src) (words : List UInt32) :
    src.feed? s words = some (src.feed s words) := by
  have hfed : InRange s.slots { src with decoder := (src.decoder.decode words).2.1 } :=
    hin.of_resting (by simp only [resting, Decoder.blank_decode])
  have hsame : (src.decoder.decode words).2.1.addressCount = src.decoder.addressCount := by
    rw [← addressCount_blank, Decoder.blank_decode, addressCount_blank]
  have hall := hfed.recordAll?_eq (src.decoder.decode words).1 fun h hh =>
    hsame.symm ▸ hin.faithful.address_lt words h hh
  rw [feed?, hin.ready?_eq]
  simp only [Option.bind_eq_bind, Option.bind_some, hall]
  rfl

theorem beginRun?_eq (hin : InRange s.slots src) : src.beginRun? s = some (src.beginRun s) := by
  rw [beginRun?, Store.view?_eq (List.forall_mem_singleton.2 hin.counts_stop_le)]
  rfl

theorem beginEvent?_eq (hin : InRange s.slots src) :
    src.beginEvent? s = some (src.beginEvent s) := by
  rw [beginEvent?, Store.view?_eq (List.forall_mem_map.2 fun p => hin.output_stop_le)]
  rfl

end InRange

end Source

end Readout
