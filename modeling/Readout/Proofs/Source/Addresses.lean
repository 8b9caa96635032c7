import Readout.Proofs.Pattern.Gathering
import Readout.Proofs.Source.Feed

/-!
# Addresses and values of hits

A decoder whose fields are those of its patterns reports no address that its address bits cannot
hold, whatever words it is given. A group that was put together from patterns has no more than 64
data bits, and a decoder reports no value that the data bits of its patterns cannot hold.
-/
namespace Readout

/-- The fields of the member are those of its pattern. -/
def Member.Faithful (m : Member) : Prop :=
  m.address = m.pattern.field .address ∧ m.data = m.pattern.field .data

theorem Member.Faithful.field_eq {m : Member} (h : m.Faithful) (part : Part) :
    ∃ s, m.field part = m.pattern.field s := by
  cases part with
  | address => exact ⟨.address, h.1⟩
  | data => exact ⟨.data, h.2⟩

namespace Group

variable {g g' : Group}

def Faithful (g : Group) : Prop := ∀ m ∈ g.members, m.Faithful

theorem faithful_blank (g : Group) : g.blank.Faithful ↔ g.Faithful :=
  List.forall_mem_map

theorem bits_blank (g : Group) (part : Part) : g.blank.bits part = g.bits part := by
  rw [bits, bits, blank, List.map_map]
  cases part <;> rfl

theorem Faithful.of_blank (h : g.Faithful) (hb : g'.blank = g.blank) : g'.Faithful := by
  rw [← faithful_blank, hb, faithful_blank]
  exact h

theorem bits_of_blank (hb : g'.blank = g.blank) (part : Part) : g'.bits part = g.bits part := by
  rw [← bits_blank, hb, bits_blank]

theorem add_eq_ok {p : Pattern} (h : g.add p = .ok g') :
    g' = release ⟨g.members ++ [Member.ofPattern p]⟩ ∧
      ∀ part, g.bits part + ((Member.ofPattern p).field part).bits ≤ maxBits := by
  rw [add] at h
  split at h
  · cases h
  · split at h
    · cases h
    · next haddress =>
      split at h
      · cases h
      · next hdata =>
        refine ⟨(Except.ok.inj h).symm, fun part => ?_⟩
        cases part with
        | address => exact Nat.le_of_not_lt haddress
        | data => exact Nat.le_of_not_lt hdata

theorem faithful_add {p : Pattern} (h : g.Faithful) (ha : g.add p = .ok g') : g'.Faithful := by
  obtain ⟨rfl, -⟩ := add_eq_ok ha
  refine List.forall_mem_map.2 fun m hm => ?_
  rcases List.mem_append.1 hm with hm | hm
  · exact h m hm
  · rw [List.mem_singleton.1 hm]
    exact ⟨rfl, rfl⟩

theorem faithful_empty : empty.Faithful := by
  simp [Faithful, empty]

/-- Groups grow by patterns, one by one, and take and release words at any time. -/
inductive Built : Group → Prop
  | empty : Built empty
  | add {g g' : Group} {p : Pattern} : Built g → g.add p = .ok g' → Built g'
  | offer {g : Group} (word : UInt32) (index : Int) : Built g → Built (g.offer word index)
  | release {g : Group} : Built g → Built g.release

theorem Built.faithful (h : g.Built) : g.Faithful := by
  induction h with
  | empty => exact faithful_empty
  | add _ ha ih => exact faithful_add ih ha
  | offer word index _ ih => exact ih.of_blank (blank_offer _ word index)
  | release _ ih => exact ih.of_blank (blank_release _)

theorem Built.ofPatterns {ps : List Pattern} (h : g.Built) (ha : ps.foldlM Group.add g = .ok g') :
    g'.Built := by
  induction ps generalizing g with
  | nil =>
    obtain rfl := Except.ok.inj ha
    exact h
  | cons p ps ih =>
    rw [List.foldlM_cons] at ha
    obtain ⟨k, hk, ha⟩ := exists_of_bind_eq_ok ha
    exact ih (h.add hk) ha

theorem built_parse {texts : List String} (h : parse texts = .ok g) : g.Built := by
  obtain ⟨ps, -, h⟩ := exists_of_bind_eq_ok h
  exact Built.empty.ofPatterns h

/-- The members of a group of texts have the fields that the texts mark. -/
theorem faithful_parse {texts : List String} (h : parse texts = .ok g) : g.Faithful :=
  (built_parse h).faithful

theorem join_lt {part : Part} {ms : List Member} (h : ∀ m ∈ ms, m.Faithful) :
    (join part ms).toNat < 2 ^ total (ms.map fun m => (m.field part).bits) := by
  induction ms with
  | nil => exact Nat.zero_lt_one
  | cons m ms ih =>
    obtain ⟨hm, hms⟩ := List.forall_mem_cons.1 h
    obtain ⟨s, hs⟩ := hm.field_eq part
    have hbits := m.pattern.bits_field_le s
    have hfield := Field.extract_lt m.pattern s m.word
    have hrest := ih hms
    rw [join, List.map_cons, total, hs]
    generalize (m.pattern.field s).bits = b at hbits hfield ⊢
    generalize total (ms.map fun m => (m.field part).bits) = t at hrest ⊢
    have hb : (UInt64.ofNat b).toNat % 64 = b := by
      rw [UInt64.toNat_ofNat']
      omega
    rw [UInt64.toNat_or, UInt64.toNat_shiftLeft, hb, UInt32.toNat_toUInt64, Nat.shiftLeft_eq]
    refine Nat.or_lt_two_pow ?_ ?_
    · exact Nat.lt_of_lt_of_le hfield (Nat.pow_le_pow_right (by decide) (Nat.le_add_right b t))
    · rw [Nat.add_comm, Nat.pow_add]
      exact Nat.lt_of_le_of_lt (Nat.mod_le _ _)
        (Nat.mul_lt_mul_of_pos_right hrest (Nat.two_pow_pos b))

theorem Faithful.extract_lt (h : g.Faithful) (part : Part) :
    (g.extract part).toNat < Word.size (g.bits part) := join_lt h

end Group

namespace Packing

theorem built_addHalves {half : Nat} {texts : List String} {g g' : Group} (h : g.Built)
    (ha : addHalves half texts g = .ok g') : g'.Built := by
  induction texts generalizing half g with
  | nil =>
    obtain rfl := Except.ok.inj ha
    exact h
  | cons text texts ih =>
    rw [addHalves] at ha
    obtain ⟨p, -, ha⟩ := exists_of_bind_eq_ok ha
    obtain ⟨k, hk, ha⟩ := exists_of_bind_eq_ok ha
    exact ih (h.add hk) ha

theorem built_make {wide reversed : Bool} {wordCount : Nat} {texts : List String} {p : Packing}
    (h : make wide reversed wordCount texts = .ok p) : p.group.Built := by
  rw [make] at h
  split at h
  · cases h
  · obtain ⟨g, hg, h⟩ := exists_of_bind_eq_ok h
    have hbuilt := built_addHalves .empty (exists_of_mapError_eq_ok hg)
    split at h
    · cases h
    · obtain rfl := Except.ok.inj h
      exact hbuilt

theorem blank_matched (p : Packing) (combined : UInt64) :
    (p.matched combined).blank = p.group.blank := by
  rw [matched, Group.blank_offer, Group.blank_offer, Group.blank_release]

theorem faithful_make {wide reversed : Bool} {wordCount : Nat} {texts : List String} {p : Packing}
    (h : make wide reversed wordCount texts = .ok p) : p.group.Faithful :=
  (built_make h).faithful

end Packing

namespace GroupDecoder

theorem hit_step (d : GroupDecoder) (word : UInt32) (index : Nat) :
    ∀ h ∈ (d.step word index).1, h = hit (d.group.offer word index) := by
  intro h hm
  rw [step] at hm
  split at hm
  · cases hm
  · split at hm
    · cases hm
    · exact (Option.some.inj hm).symm

theorem address_lt {d : GroupDecoder} (h : d.group.Faithful) {index : Nat} {words : List UInt32} :
    ∀ hit ∈ (decodeFrom index words d).1, hit.address < Word.size d.addressBits := by
  induction words generalizing index d with
  | nil => simp [decodeFrom]
  | cons w words ih =>
    intro hit hm
    have hblank := congrArg GroupDecoder.group (d.blank_step w index)
    rcases List.mem_append.1 hm with hm | hm
    · have hg : (d.group.offer w index).blank = d.group.blank := d.group.blank_offer w index
      have hlt := (h.of_blank hg).extract_lt .address
      rw [Group.bits_of_blank hg] at hlt
      rw [d.hit_step w index hit (Option.mem_toList.1 hm)]
      exact hlt
    · have hlt := ih (h.of_blank hblank) hit hm
      rwa [addressBits, Group.bits_of_blank hblank] at hlt

end GroupDecoder

namespace PackedDecoder

theorem le_size_repetitionBits {d : PackedDecoder} {n : Nat} (h : n < d.repetitions) :
    n < Word.size d.repetitionBits := by
  rw [repetitionBits]
  split
  · have hn : n = 0 := by omega
    rw [hn]
    exact Nat.zero_lt_one
  · have hlt : d.repetitions - 1 < 2 ^ ((d.repetitions - 1).log2 + 1) := Nat.lt_log2_self
    exact Nat.lt_of_le_of_lt (by omega) hlt

theorem compose_lt {d : PackedDecoder} {address n : Nat} (ha : address < Word.size d.baseBits)
    (hn : n < Word.size d.repetitionBits) : d.compose address n < Word.size d.addressBits := by
  have hjoin : ∀ {low high b c : Nat}, low < 2 ^ b → high < 2 ^ c →
      high <<< b < 2 ^ (b + c) ∧ low < 2 ^ (b + c) := by
    intro low high b c hlow hhigh
    refine ⟨?_, Nat.lt_of_lt_of_le hlow (Nat.pow_le_pow_right (by decide) (Nat.le_add_right b c))⟩
    rw [Nat.shiftLeft_eq, Nat.add_comm, Nat.pow_add]
    exact Nat.mul_lt_mul_of_pos_right hhigh (Nat.two_pow_pos b)
  rw [compose, addressBits]
  split
  · obtain ⟨hhigh, hlow⟩ := hjoin hn ha
    rw [Nat.add_comm]
    exact Nat.or_lt_two_pow hhigh hlow
  · obtain ⟨hhigh, hlow⟩ := hjoin ha hn
    exact Nat.or_lt_two_pow hlow hhigh

theorem hit?_eq (d : PackedDecoder) (n : Nat) (words : List UInt32) :
    d.hit? n words =
      let g := d.packing.matched (d.packing.combine words)
      if g.complete then some ⟨d.compose (g.extract .address).toNat n, g.extract .data⟩
      else none := by
  rw [hit?]
  generalize d.packing.combine words = combined
  cases hc : (d.packing.matched combined).complete <;> simp [Packing.extract?, hc]

theorem exists_of_hit? {d : PackedDecoder} {n : Nat} {words : List UInt32} {hit : Hit}
    (h : d.hit? n words = some hit) : ∃ g : Group, g.blank = d.packing.group.blank ∧
      hit = ⟨d.compose (g.extract .address).toNat n, g.extract .data⟩ := by
  rw [hit?_eq] at h
  obtain ⟨-, h⟩ := Option.ite_none_right_eq_some.1 h
  exact ⟨_, d.packing.blank_matched _, (Option.some.inj h).symm⟩

theorem hit?_address_lt {d : PackedDecoder} (h : d.packing.group.Faithful) {n : Nat}
    (hn : n < d.repetitions) (words : List UInt32) :
    ∀ hit ∈ d.hit? n words, hit.address < Word.size d.addressBits := by
  intro hit hm
  obtain ⟨g, hg, rfl⟩ := exists_of_hit? hm
  have hlt := (h.of_blank hg).extract_lt .address
  rw [Group.bits_of_blank hg] at hlt
  exact compose_lt hlt (le_size_repetitionBits hn)

theorem address_lt {d : PackedDecoder} (h : d.packing.group.Faithful) {n left : Nat}
    {words : List UInt32} (hn : n + left ≤ d.repetitions) :
    ∀ hit ∈ (d.decodeFrom n left words).1, hit.address < Word.size d.addressBits := by
  induction left generalizing n words with
  | zero => simp [decodeFrom]
  | succ left ih =>
    intro hit hm
    rw [decodeFrom] at hm
    dsimp only at hm
    split at hm
    · cases hm
    · rcases List.mem_append.1 hm with hm | hm
      · exact hit?_address_lt h (by omega) _ hit (Option.mem_toList.1 hm)
      · exact ih (by omega) hit hm

end PackedDecoder

theorem WordDecoder.address_lt {d : WordDecoder} (h : d.address = d.pattern.field .address)
    {index : Nat} {words : List UInt32} :
    ∀ hit ∈ d.decodeFrom index words, hit.address < Word.size d.address.bits := by
  induction words generalizing index with
  | nil => simp [decodeFrom]
  | cons w words ih =>
    intro hit hm
    rcases List.mem_append.1 hm with hm | hm
    · rw [Option.mem_toList, hit?] at hm
      split at hm
      · obtain rfl := Option.some.inj hm
        rw [h]
        exact Field.extract_lt d.pattern .address w
      · cases hm
    · exact ih hit hm

namespace Decoder

/-- The fields of the decoder are those of its patterns. -/
def Faithful : Decoder → Prop
  | group d => d.group.Faithful
  | packed d => d.packing.group.Faithful
  | word d => d.address = d.pattern.field .address ∧ d.data = d.pattern.field .data

theorem Faithful.address_lt {d : Decoder} (h : d.Faithful) (words : List UInt32) :
    ∀ hit ∈ (d.decode words).1, hit.address < d.addressCount := by
  cases d with
  | group d => exact d.address_lt h
  | packed d => exact d.address_lt h (by omega)
  | word d => exact d.address_lt h.1

theorem faithful_blank (d : Decoder) : d.blank.Faithful ↔ d.Faithful := by
  cases d with
  | group d => exact d.group.faithful_blank
  | packed d => exact Iff.rfl
  | word d => exact Iff.rfl

end Decoder

namespace Group

variable {g g' : Group}

theorem bits_add {p : Pattern} (h : g.add p = .ok g') (part : Part) :
    g'.bits part = g.bits part + ((Member.ofPattern p).field part).bits ∧
      g'.bits part ≤ maxBits := by
  obtain ⟨rfl, hroom⟩ := add_eq_ok h
  have hbits : (release ⟨g.members ++ [Member.ofPattern p]⟩).bits part =
      g.bits part + ((Member.ofPattern p).field part).bits := by
    rw [bits_of_blank (blank_release _), bits, List.map_append, total_append]
    rfl
  exact ⟨hbits, hbits ▸ hroom part⟩

theorem Built.bits_le (h : g.Built) (part : Part) : g.bits part ≤ maxBits := by
  induction h with
  | empty => exact Nat.zero_le _
  | add _ ha _ => exact (bits_add ha part).2
  | offer word index _ ih => rwa [bits_of_blank (blank_offer _ word index)]
  | release _ ih => rwa [bits_of_blank (blank_release _)]

end Group

/-- The hit is that of a group that differs from another one in the words it took. -/
theorem GroupDecoder.mem_decodeFrom {d : GroupDecoder} {index : Nat} {words : List UInt32} :
    ∀ h ∈ (decodeFrom index words d).1, ∃ g : Group, g.blank = d.group.blank ∧ h = hit g := by
  induction words generalizing index d with
  | nil => simp [decodeFrom]
  | cons w words ih =>
    intro h hm
    rcases List.mem_append.1 hm with hm | hm
    · exact ⟨_, d.group.blank_offer w index, d.hit_step w index h (Option.mem_toList.1 hm)⟩
    · obtain ⟨g, hg, heq⟩ := ih h hm
      exact ⟨g, hg.trans (congrArg GroupDecoder.group (d.blank_step w index)), heq⟩

namespace PackedDecoder

variable {d : PackedDecoder}

theorem value_of_hit? {n : Nat} {words : List UInt32} :
    ∀ h ∈ d.hit? n words, ∃ g : Group, g.blank = d.packing.group.blank ∧
      h.value = g.extract .data := by
  intro h hm
  obtain ⟨g, hg, rfl⟩ := exists_of_hit? hm
  exact ⟨g, hg, rfl⟩

theorem mem_decodeFrom {n left : Nat} {words : List UInt32} :
    ∀ h ∈ (d.decodeFrom n left words).1, ∃ g : Group, g.blank = d.packing.group.blank ∧
      h.value = g.extract .data := by
  induction left generalizing n words with
  | zero => simp [decodeFrom]
  | succ left ih =>
    intro h hm
    rw [decodeFrom] at hm
    dsimp only at hm
    split at hm
    · cases hm
    · rcases List.mem_append.1 hm with hm | hm
      · exact value_of_hit? h (Option.mem_toList.1 hm)
      · exact ih h hm

end PackedDecoder

theorem WordDecoder.mem_decodeFrom {d : WordDecoder} {index : Nat} {words : List UInt32} :
    ∀ h ∈ d.decodeFrom index words, ∃ w, h.value = (d.data.extract w).toUInt64 := by
  induction words generalizing index with
  | nil => simp [decodeFrom]
  | cons w words ih =>
    intro h hm
    rcases List.mem_append.1 hm with hm | hm
    · rw [Option.mem_toList, hit?] at hm
      split at hm
      · obtain rfl := Option.some.inj hm
        exact ⟨w, rfl⟩
      · cases hm
    · exact ih h hm

namespace Decoder

def dataBits : Decoder → Nat
  | group d => d.group.bits .data
  | packed d => d.packing.group.bits .data
  | word d => d.data.bits

theorem dataBits_blank (d : Decoder) : d.blank.dataBits = d.dataBits := by
  cases d with
  | group d => exact d.group.bits_blank .data
  | packed d => rfl
  | word d => rfl

theorem Faithful.value_lt {d : Decoder} (h : d.Faithful) (words : List UInt32) :
    ∀ hit ∈ (d.decode words).1, hit.value.toNat < 2 ^ d.dataBits := by
  intro hit hm
  cases d with
  | group d =>
    obtain ⟨g, hg, rfl⟩ := GroupDecoder.mem_decodeFrom hit hm
    have hlt := (Group.Faithful.of_blank h hg).extract_lt .data
    rwa [Group.bits_of_blank hg] at hlt
  | packed d =>
    obtain ⟨g, hg, hvalue⟩ := PackedDecoder.mem_decodeFrom hit hm
    have hlt := (Group.Faithful.of_blank h hg).extract_lt .data
    rwa [Group.bits_of_blank hg, ← hvalue] at hlt
  | word d =>
    obtain ⟨w, hvalue⟩ := WordDecoder.mem_decodeFrom hit hm
    rw [hvalue, UInt32.toNat_toUInt64, dataBits, h.2]
    exact Field.extract_lt d.pattern .data w

end Decoder

end Readout
