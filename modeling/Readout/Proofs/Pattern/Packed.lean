import Mathlib.Data.Nat.Digits.Lemmas
import Readout.Proofs.Source.Completions

/-!
# Values of 64 bits

A value is joined from the low bits of a few words, which become its digits: they lie side by side,
and a packing that is turned takes the words that are there backwards (`Packing.combine_parts`). Its
two halves then go through a group, which keeps the words that it has taken. None of that shows:
what is extracted is what one pattern for all 64 bits says of the value, whatever was extracted
before (`Packing.extract_eq_spelled`).
-/
namespace Readout

namespace Packing

section Joining

/-- The low bits of a word. -/
def slice (bits : Nat) (w : UInt32) : UInt64 :=
  w.toUInt64 &&& (((1 : UInt64) <<< UInt64.ofNat bits) - 1)

/-- Puts the part of a word next to those that came before it. -/
def lay (bits : Nat) (combined : UInt64) (placed : UInt32 × Nat) : UInt64 :=
  combined ||| slice bits placed.1 <<< UInt64.ofNat (placed.2 * bits)

/-- The number whose digits are the parts, the lowest one first. -/
def digits (bits : Nat) (words : List UInt32) : List Nat := words.map (·.toNat % 2 ^ bits)

theorem toNat_shiftLeft {x : UInt64} {k : Nat} (hk : k < 64) (hx : 2 ^ k * x.toNat < 2 ^ 64) :
    (x <<< UInt64.ofNat k).toNat = 2 ^ k * x.toNat := by
  have hplace : k % 2 ^ 64 % 64 = k := by omega
  rw [UInt64.toNat_shiftLeft, UInt64.toNat_ofNat', hplace, Nat.shiftLeft_eq, Nat.mul_comm,
    Nat.mod_eq_of_lt hx]

theorem toNat_slice {bits : Nat} (hbits : bits ≤ 32) (w : UInt32) :
    (slice bits w).toNat = w.toNat % 2 ^ bits := by
  have hpow : 2 ^ bits * (1 : UInt64).toNat < 2 ^ 64 := by
    rw [UInt64.toNat_one, Nat.mul_one]
    exact Nat.pow_lt_pow_right (by decide) (by omega)
  have hshift := toNat_shiftLeft (by omega) hpow
  rw [UInt64.toNat_one, Nat.mul_one] at hshift
  have hone : (1 : UInt64) ≤ (1 : UInt64) <<< UInt64.ofNat bits :=
    UInt64.le_iff_toNat_le.2 (hshift ▸ Nat.one_le_two_pow)
  rw [slice, UInt64.toNat_and, UInt64.toNat_sub_of_le _ _ hone, hshift, UInt32.toNat_toUInt64]
  exact Nat.and_two_pow_sub_one_eq_mod _ _

/-- Bits that stand above all others add up with them. -/
theorem toNat_or_shiftLeft {low high : UInt64} {k n : Nat} (hlow : low.toNat < 2 ^ k)
    (hhigh : high.toNat < 2 ^ n) (hk : k < 64) (hn : k + n ≤ 64) :
    (low ||| high <<< UInt64.ofNat k).toNat = low.toNat + 2 ^ k * high.toNat := by
  have hsum : 2 ^ k * high.toNat < 2 ^ 64 :=
    calc 2 ^ k * high.toNat < 2 ^ k * 2 ^ n :=
          Nat.mul_lt_mul_of_pos_left hhigh (Nat.two_pow_pos k)
      _ = 2 ^ (k + n) := (pow_add 2 k n).symm
      _ ≤ 2 ^ 64 := Nat.pow_le_pow_right (by decide) hn
  rw [UInt64.toNat_or, toNat_shiftLeft hk hsum, Nat.or_comm, ← Nat.two_pow_add_eq_or_of_lt hlow,
    Nat.add_comm]

variable {bits : Nat}

theorem digits_lt {words : List UInt32} : ∀ d ∈ digits bits words, d < 2 ^ bits := by
  intro d hd
  obtain ⟨w, -, rfl⟩ := List.mem_map.1 hd
  exact Nat.mod_lt _ (Nat.two_pow_pos bits)

theorem ofDigits_lt (hpos : 0 < bits) (words : List UInt32) :
    Nat.ofDigits (2 ^ bits) (digits bits words) < 2 ^ (words.length * bits) := by
  have hlt := Nat.ofDigits_lt_base_pow_length (Nat.one_lt_two_pow (Nat.ne_of_gt hpos))
    (@digits_lt bits words)
  rwa [digits, List.length_map, ← pow_mul, Nat.mul_comm] at hlt

theorem toNat_join (hpos : 0 < bits) (hbits : bits ≤ 32) {words : List UInt32}
    (h : words.length * bits ≤ 64) :
    (join bits words).toNat = Nat.ofDigits (2 ^ bits) (digits bits words) := by
  induction words with
  | nil => rfl
  | cons w words ih =>
    rw [List.length_cons, Nat.succ_mul] at h
    have hrest := ih (by omega)
    have hslice : (slice bits w).toNat < 2 ^ bits :=
      toNat_slice hbits w ▸ Nat.mod_lt _ (Nat.two_pow_pos bits)
    change (slice bits w ||| join bits words <<< UInt64.ofNat bits).toNat = _
    rw [toNat_or_shiftLeft hslice (hrest ▸ ofDigits_lt hpos words) (by omega) (by omega),
      toNat_slice hbits, hrest, digits, digits, List.map_cons, Nat.ofDigits_cons]

/-- What the parts so far do not reach is filled by the parts that follow. -/
theorem toNat_foldl_lay (hpos : 0 < bits) (hbits : bits ≤ 32) {words : List UInt32}
    {combined : UInt64} {k : Nat} (hlt : combined.toNat < 2 ^ (k * bits))
    (h : (k + words.length) * bits ≤ 64) :
    ((words.zipIdx k).foldl (lay bits) combined).toNat =
      combined.toNat + 2 ^ (k * bits) * Nat.ofDigits (2 ^ bits) (digits bits words) := by
  induction words generalizing combined k with
  | nil => simp [digits]
  | cons w words ih =>
    have hroom : (k + 1) * bits ≤ 64 := le_trans (Nat.mul_le_mul_right bits (by simp)) h
    rw [Nat.succ_mul] at hroom
    have hslice : (slice bits w).toNat < 2 ^ bits :=
      toNat_slice hbits w ▸ Nat.mod_lt _ (Nat.two_pow_pos bits)
    have hlay : (lay bits combined (w, k)).toNat =
        combined.toNat + 2 ^ (k * bits) * (w.toNat % 2 ^ bits) := by
      rw [lay, toNat_or_shiftLeft hlt hslice (by omega) hroom, toNat_slice hbits]
    have hnext : (lay bits combined (w, k)).toNat < 2 ^ ((k + 1) * bits) := by
      rw [hlay, Nat.succ_mul, pow_add]
      have hmod : w.toNat % 2 ^ bits + 1 ≤ 2 ^ bits := Nat.mod_lt _ (Nat.two_pow_pos bits)
      calc _ < 2 ^ (k * bits) * (w.toNat % 2 ^ bits + 1) := by rw [Nat.mul_add]; omega
        _ ≤ 2 ^ (k * bits) * 2 ^ bits := Nat.mul_le_mul_left _ hmod
    rw [List.length_cons, Nat.add_comm words.length, ← Nat.add_assoc] at h
    rw [List.zipIdx_cons, List.foldl_cons, ih hnext h, hlay, digits, digits, List.map_cons,
      Nat.ofDigits_cons, Nat.succ_mul, pow_add]
    ring

theorem join_eq_foldl (hpos : 0 < bits) (hbits : bits ≤ 32) {words : List UInt32}
    (h : words.length * bits ≤ 64) : join bits words = words.zipIdx.foldl (lay bits) 0 := by
  refine UInt64.toNat_inj.1 ?_
  rw [toNat_join hpos hbits h, toNat_foldl_lay hpos hbits (by simp) (by simpa using h)]
  simp

theorem part_join (hpos : 0 < bits) (hbits : bits ≤ 32) {words : List UInt32}
    (h : words.length * bits ≤ 64) {k : Nat} (hk : k < words.length) :
    (join bits words).toNat / 2 ^ (k * bits) % 2 ^ bits = words[k].toNat % 2 ^ bits := by
  have hk' : k < (digits bits words).length := by rwa [digits, List.length_map]
  rw [toNat_join hpos hbits h, Nat.mul_comm, pow_mul,
    Nat.ofDigits_div_pow_eq_ofDigits_drop k (Nat.two_pow_pos bits) _ digits_lt,
    Nat.ofDigits_mod_eq_head!, List.drop_eq_getElem_cons hk', List.head!_cons]
  simp [digits]

end Joining

section Combining

variable {wide reversed : Bool} {wordCount : Nat} {texts : List String} {p : Packing}

/-- How a packing is turned has no part in whether it can be made. -/
theorem make_eq_ok (h : make wide reversed wordCount texts = .ok p) :
    0 < wordCount ∧ wordCount ≤ maxWords wide ∧
      (p.wide = wide ∧ p.reversed = reversed ∧ p.wordCount = wordCount) ∧
      ∀ turned, make wide turned wordCount texts = .ok { p with reversed := turned } := by
  simp only [make] at h ⊢
  split at h
  · cases h
  · next hfew =>
    obtain ⟨g, hg, h⟩ := exists_of_bind_eq_ok h
    split at h
    · cases h
    · next hcount =>
      obtain rfl := Except.ok.inj h
      refine ⟨by omega, by omega, ⟨rfl, rfl, rfl⟩, fun turned => ?_⟩
      rw [if_neg hfew, hg]
      exact if_neg hcount

theorem combine_turned (p : Packing) (data : List UInt32) :
    { p with reversed := true }.combine data =
      { p with reversed := false }.combine (data.take (min data.length p.wordCount)).reverse := by
  have htake : data.take (min data.length p.wordCount) = data.take p.wordCount := by
    rw [List.take_eq_take_iff]
    omega
  have hall : (data.take p.wordCount).reverse.take p.wordCount = (data.take p.wordCount).reverse :=
    List.take_of_length_le (by simp)
  simp only [combine, htake, hall]
  rfl

theorem getElem_turned (reversed : Bool) (words : List UInt32) {k : Nat}
    (hk : k < (if reversed then words.reverse else words).length) :
    words[if reversed then words.length - 1 - k else k]? =
      some (if reversed then words.reverse else words)[k] := by
  cases reversed with
  | false => exact List.getElem?_eq_getElem hk
  | true =>
    rw [if_pos rfl, List.length_reverse] at hk
    simp [List.getElem?_eq_getElem (by omega : words.length - 1 - k < words.length)]

/-- The parts of the words lie in a combined value side by side: nothing of a word but its low bits
gets there, no part reaches into another, and the value ends behind the last part. Of a list that is
too long only the first words count, and a packing that is turned goes backwards through those that
are there, however many there should be. -/
theorem combine_parts (h : make wide reversed wordCount texts = .ok p) (data : List UInt32) :
    let bits := if wide then 32 else 16
    let n := min data.length wordCount
    let words := data.take wordCount
    let forward : Packing := { p with reversed := false }
    let backward : Packing := { p with reversed := true }
    (p.partBits = bits ∧ 0 < wordCount ∧ wordCount ≤ (if wide then 2 else 4)) ∧
    p.combine data =
      (if reversed then words.reverse else words).zipIdx.foldl (lay bits) 0 ∧
    (p.combine data).toNat < 2 ^ (n * bits) ∧
    (∀ k < n, data[if reversed then n - 1 - k else k]?.map (·.toNat % 2 ^ bits) =
      some ((p.combine data).toNat / 2 ^ (k * bits) % 2 ^ bits)) ∧
    p.combine words = p.combine data ∧
    (make wide false wordCount texts = .ok forward ∧
      make wide true wordCount texts = .ok backward ∧
      backward.combine data = forward.combine (data.take n).reverse) := by
  intro bits n words forward backward
  obtain ⟨hcount, hmax, ⟨hwide, hreversed, hwordCount⟩, hturned⟩ := make_eq_ok h
  have hpart : p.partBits = bits := by rw [partBits, hwide]
  have hbits : 0 < bits ∧ bits ≤ 32 ∧ wordCount * bits ≤ 64 := by
    cases wide with
    | false => exact ⟨by decide, by decide, Nat.mul_le_mul_right 16 hmax⟩
    | true => exact ⟨by decide, by decide, Nat.mul_le_mul_right 32 hmax⟩
  obtain ⟨hpos, hnarrow, hroom⟩ := hbits
  have hlength : words.length = n := by rw [List.length_take, Nat.min_comm]
  obtain ⟨parts, hparts⟩ : ∃ parts, parts = if reversed then words.reverse else words := ⟨_, rfl⟩
  have hn : parts.length = n := by cases reversed <;> simp [hparts, hlength]
  have hfits : parts.length * bits ≤ 64 :=
    (Nat.mul_le_mul_right bits (hn ▸ Nat.min_le_right _ _)).trans hroom
  have hcombine : p.combine data = join bits parts := by
    rw [combine, hpart, hreversed, hwordCount, hparts]
  refine ⟨⟨hpart, hcount, hmax⟩, ?_, ?_, fun k hk => ?_, ?_, hturned false, hturned true, ?_⟩
  · rw [hcombine, ← hparts]
    exact join_eq_foldl hpos hnarrow hfits
  · rw [hcombine, toNat_join hpos hnarrow hfits, ← hn]
    exact ofDigits_lt hpos parts
  · have hk' : k < parts.length := hn ▸ hk
    have hword := getElem_turned reversed words (hparts ▸ hk')
    rw [List.getElem?_take_of_lt (by split <;> omega), hlength] at hword
    rw [hword, hcombine, part_join hpos hnarrow hfits hk', Option.map_some]
    simp only [hparts]
  · simp only [combine, hwordCount, words, List.take_take, Nat.min_self]
  · have hmin : min data.length p.wordCount = n := by rw [hwordCount]
    exact hmin ▸ combine_turned p data

/-- Two words where four are possible, taken backwards, and one with bits above its part. -/
theorem combine_parts_short :
    make false true 4 [] = .ok ⟨Group.empty, false, true, 4⟩ ∧
      let v := (Packing.combine ⟨Group.empty, false, true, 4⟩ [0x43210001, 2]).toNat
      v < 2 ^ 32 ∧ v / 2 ^ 16 % 2 ^ 16 = 1 ∧ v % 2 ^ 16 = 2 := by
  have hmake : make false true 4 [] = .ok ⟨Group.empty, false, true, 4⟩ := rfl
  obtain ⟨-, -, hlt, hpart, -⟩ := combine_parts hmake [0x43210001, 2]
  have hlow := Option.some.inj (hpart 0 (by decide))
  have hhigh := Option.some.inj (hpart 1 (by decide))
  exact ⟨hmake, hlt, hhigh.symm, by simpa using hlow.symm⟩

end Combining

/-- The pattern for all 64 bits, the highest one first. -/
def spelled : List String → List Symbol
  | high :: low :: _ => Pattern.aligned high ++ Pattern.aligned low
  | [low] => List.replicate 32 .any ++ Pattern.aligned low
  | [] => List.replicate 64 .any

/-- The packing after the value has gone through its group. -/
def fed (p : Packing) (combined : UInt64) : Packing := { p with group := p.matched combined }

/-- One field of a value, and whether the value matches. -/
def extractPart (p : Packing) (combined : UInt64) (part : Part) : (UInt64 × Bool) × Packing :=
  let p := p.fed combined
  (if p.group.complete then (p.group.extract part, true) else (0, false), p)

structure Extracted where
  address : UInt64
  value : UInt64
  matched : Bool
deriving DecidableEq

def extractBoth (p : Packing) (combined : UInt64) : Extracted × Packing :=
  let p := p.fed combined
  (if p.group.complete then ⟨p.group.extract .address, p.group.extract .data, true⟩
    else ⟨0, 0, false⟩, p)

/-- A use of a packing. -/
inductive Extraction
  | field (combined : UInt64) (part : Part)
  | both (combined : UInt64)

def Extraction.apply (p : Packing) : Extraction → Packing
  | field combined part => (p.extractPart combined part).2
  | both combined => (p.extractBoth combined).2

section Halves

variable {half : Nat} {texts : List String} {g g' : Group}

theorem patterns_addHalves (h : addHalves half texts g = .ok g') : ∃ ps,
    g'.patterns = g.patterns ++ ps ∧
      ps.map Pattern.symbols = texts.map (fun text => (Pattern.aligned text).reverse) ∧
      ps.map Pattern.wordIndex = (List.range' half texts.length).map Int.ofNat := by
  induction texts generalizing half g with
  | nil =>
    obtain rfl := Except.ok.inj h
    exact ⟨[], by simp⟩
  | cons text texts ih =>
    obtain ⟨p, hp, h⟩ := exists_of_bind_eq_ok h
    obtain ⟨k, hk, h⟩ := exists_of_bind_eq_ok h
    obtain ⟨ps, hps, hsymbols, hindex⟩ := ih h
    obtain ⟨hsymbol, hplace⟩ := Pattern.read_eq_ok hp
    refine ⟨p :: ps, ?_, ?_, ?_⟩
    · rw [hps, Group.patterns_add hk, List.append_assoc, List.singleton_append]
    · rw [List.map_cons, List.map_cons, hsymbols, hsymbol]
    · rw [List.map_cons, hindex, hplace, List.length_cons, List.range'_succ,
        List.map_cons]
      rfl

end Halves

theorem patterns_make {wide reversed : Bool} {wordCount : Nat} {texts : List String} {p : Packing}
    (h : make wide reversed wordCount texts = .ok p) : texts.length ≤ 2 ∧
      p.group.patterns.map Pattern.symbols =
        texts.reverse.map (fun text => (Pattern.aligned text).reverse) ∧
      p.group.patterns.map Pattern.wordIndex = (List.range texts.length).map Int.ofNat := by
  rw [make] at h
  split at h
  · cases h
  · next hle =>
    obtain ⟨g, hg, h⟩ := exists_of_bind_eq_ok h
    obtain ⟨ps, hps, hsymbols, hindex⟩ := patterns_addHalves (exists_of_mapError_eq_ok hg)
    have hempty : Group.empty.patterns = [] := rfl
    rw [hempty, List.nil_append] at hps
    split at h
    · cases h
    · refine ⟨by omega, ?_⟩
      rw [← Except.ok.inj h, hps, List.range_eq_range', ← List.length_reverse]
      exact ⟨hsymbols, hindex⟩

theorem hand_matched (p : Packing) (combined : UInt64) :
    (p.matched combined).hand = ((Hand.empty p.group.patterns).place combined.toUInt32 0).place
      (combined >>> 32).toUInt32 1 := by
  rw [← Group.hand_release, ← Group.hand_offer, ← Group.hand_offer]
  rfl

section Matched

variable {p : Packing} {a b : Pattern}

theorem full?_one (hp : p.group.patterns = [a]) (ha : a.wordIndex = 0) (combined : UInt64) :
    (p.matched combined).hand.full? =
      if fits a.symbols combined.toUInt32.toNat then some [(a, combined.toUInt32)] else none := by
  have hfirst := a.accepts_eq combined.toUInt32 0
  have hlater := a.accepts_eq (combined >>> 32).toUInt32 1
  rw [ha] at hfirst hlater
  rw [hand_matched, hp]
  cases hfits : fits a.symbols combined.toUInt32.toNat <;>
    simp_all [Hand.empty, Hand.place, Hand.full?, List.findIdx?_cons]

theorem full?_two (hp : p.group.patterns = [a, b]) (ha : a.wordIndex = 0) (hb : b.wordIndex = 1)
    (combined : UInt64) : (p.matched combined).hand.full? =
      if fits a.symbols combined.toUInt32.toNat && fits b.symbols (combined >>> 32).toUInt32.toNat
      then some [(a, combined.toUInt32), (b, (combined >>> 32).toUInt32)] else none := by
  have ha₀ := a.accepts_eq combined.toUInt32 0
  have ha₁ := a.accepts_eq (combined >>> 32).toUInt32 1
  have hb₀ := b.accepts_eq combined.toUInt32 0
  have hb₁ := b.accepts_eq (combined >>> 32).toUInt32 1
  rw [ha] at ha₀ ha₁
  rw [hb] at hb₀ hb₁
  rw [hand_matched, hp]
  cases hlow : fits a.symbols combined.toUInt32.toNat <;>
    cases hhigh : fits b.symbols (combined >>> 32).toUInt32.toNat <;>
      simp_all [Hand.empty, Hand.place, Hand.full?, List.findIdx?_cons]

theorem full?_none (hp : p.group.patterns = []) (combined : UInt64) :
    (p.matched combined).hand.full? = some [] := by
  rw [hand_matched, hp]
  rfl

end Matched

section Words

theorem toNat_low (combined : UInt64) :
    combined.toUInt32.toNat = combined.toNat % 2 ^ 32 := combined.toNat_toUInt32

theorem toNat_high (combined : UInt64) :
    (combined >>> 32).toUInt32.toNat = combined.toNat / 2 ^ 32 := by
  have hlt := combined.toNat_lt
  rw [UInt64.toNat_toUInt32, UInt64.toNat_shiftRight]
  change combined.toNat >>> 32 % 2 ^ 32 = _
  rw [Nat.shiftRight_eq_div_pow]
  omega

theorem fits_low (a : Pattern) (combined : UInt64) :
    fits a.symbols combined.toUInt32.toNat = fits a.symbols combined.toNat := by
  rw [toNat_low, ← a.length_eq, fits_mod]

theorem extract_low (a : Pattern) (s : Symbol) (combined : UInt64) :
    ((a.field s).extract combined.toUInt32).toNat = gathered s a.symbols combined.toNat := by
  rw [Field.toNat_extract, toNat_low, ← a.length_eq, gathered_mod]

end Words

variable {wide reversed : Bool} {wordCount : Nat} {texts : List String} {p q : Packing}

/-- The words that a value leads to, if it matches, and their fields. -/
theorem exists_words (h : make wide reversed wordCount texts = .ok p)
    (hq : q.group.blank = p.group.blank) (combined : UInt64) :
    let symbols := (spelled texts).reverse
    symbols.length = 64 ∧ ∃ words,
      (q.matched combined).hand.full? =
        (if fits symbols combined.toNat then some words else none) ∧
      ∀ s : Symbol, s ≠ .any → Hand.joined s words = gathered s symbols combined.toNat := by
  obtain ⟨hlength, hsymbols, hindex⟩ := patterns_make h
  rw [← Group.patterns_of_blank hq] at hsymbols hindex
  match texts with
  | [] =>
    have hnone : q.group.patterns = [] := by simpa using hsymbols
    have hspelled : (spelled []).reverse = List.replicate 64 .any := List.reverse_replicate
    rw [hspelled]
    refine ⟨List.length_replicate, [], ?_, fun s hs => ?_⟩
    · rw [full?_none hnone, fits_open, if_pos rfl]
    · rw [gathered_open hs, Hand.joined]
  | [low] =>
    obtain ⟨a, ha⟩ : ∃ a, q.group.patterns = [a] :=
      List.length_eq_one_iff.1 (by simpa using congrArg List.length hsymbols)
    simp only [ha, List.reverse_singleton, List.map_cons, List.map_nil, List.cons.injEq, and_true]
      at hsymbols hindex
    have hspelled : (spelled [low]).reverse = a.symbols ++ List.replicate 32 .any := by
      rw [spelled, List.reverse_append, List.reverse_replicate, hsymbols]
    rw [hspelled]
    refine ⟨by simp [a.length_eq], [(a, combined.toUInt32)], ?_, fun s hs => ?_⟩
    · rw [full?_one ha (by simpa using hindex), fits_append, fits_open, Bool.and_true, fits_low]
    · rw [gathered_append, gathered_open hs, Hand.joined, extract_low, Hand.joined]
      simp
  | [high, low] =>
    obtain ⟨a, b, hab⟩ : ∃ a b, q.group.patterns = [a, b] :=
      List.length_eq_two.1 (by simpa using congrArg List.length hsymbols)
    have hindex : a.wordIndex = 0 ∧ b.wordIndex = 1 := by
      simpa [hab, List.range_succ] using hindex
    have hsymbols : a.symbols = (Pattern.aligned low).reverse ∧
        b.symbols = (Pattern.aligned high).reverse := by simpa [hab] using hsymbols
    have hspelled : (spelled [high, low]).reverse = a.symbols ++ b.symbols := by
      rw [spelled, List.reverse_append, hsymbols.1, hsymbols.2]
    rw [hspelled]
    refine ⟨by simp [a.length_eq, b.length_eq],
      [(a, combined.toUInt32), (b, (combined >>> 32).toUInt32)], ?_, fun s hs => ?_⟩
    · rw [full?_two hab hindex.1 hindex.2, fits_append, fits_low, toNat_high, a.length_eq]
    · rw [gathered_append, Hand.joined, Hand.joined, Hand.joined, extract_low, a.bits_field,
        Field.toNat_extract, toNat_high, a.length_eq, Nat.mul_zero, Nat.add_zero]

/-- A full group tells the fields of the value that it has taken. -/
theorem matched_spec (h : make wide reversed wordCount texts = .ok p)
    (hq : q.group.blank = p.group.blank) (combined : UInt64) :
    let symbols := (spelled texts).reverse
    (q.matched combined).complete = fits symbols combined.toNat ∧
      (fits symbols combined.toNat = true → ∀ part : Part,
        ((q.matched combined).extract part).toNat =
          gathered part.symbol symbols combined.toNat) := by
  intro symbols
  obtain ⟨-, words, hfull, hjoined⟩ := exists_words h hq combined
  have hreadable := (built_make h).readable.of_blank ((q.blank_matched combined).trans hq)
  have hsymbol : ∀ part : Part, part.symbol ≠ .any := fun part => by cases part <;> decide
  rw [Group.full?_hand] at hfull
  change _ = (if fits symbols _ = true then _ else _) at hfull
  cases hfits : fits symbols combined.toNat with
  | true =>
    rw [hfits, if_pos rfl] at hfull
    split at hfull
    · next hcomplete =>
      refine ⟨hcomplete, fun _ part => ?_⟩
      rw [Group.extract, Group.join_eq hreadable.faithful (hreadable.bits_le part),
        Option.some.inj hfull]
      exact hjoined _ (hsymbol part)
    · cases hfull
  | false =>
    rw [hfits, if_neg Bool.false_ne_true] at hfull
    split at hfull
    · cases hfull
    · next hopen => exact ⟨by simpa using hopen, fun h => absurd h Bool.false_ne_true⟩

theorem blank_extractions (p : Packing) (calls : List Extraction) :
    (calls.foldl Extraction.apply p).group.blank = p.group.blank := by
  induction calls generalizing p with
  | nil => rfl
  | cons c calls ih =>
    have hstep : (c.apply p).group.blank = p.group.blank := by
      cases c <;> exact p.blank_matched _
    exact (ih _).trans hstep

/-- A packing tells of a value what one pattern for 64 bits tells, and its history does not show:
whether the value fits, and then the bits under the two field symbols, from the lowest one up. -/
theorem extract_eq_spelled (h : make wide reversed wordCount texts = .ok p)
    (calls : List Extraction) (combined : UInt64) :
    let symbols := (spelled texts).reverse
    let fitting := fits symbols combined.toNat
    let q := calls.foldl Extraction.apply p
    let both := (q.extractBoth combined).1
    symbols.length = 64 ∧
    (both.matched = fitting ∧
      both.address.toNat = (if fitting then gathered .address symbols combined.toNat else 0) ∧
      both.value.toNat = if fitting then gathered .data symbols combined.toNat else 0) ∧
    (∀ part : Part, (q.extractPart combined part).1.2 = fitting ∧
      (q.extractPart combined part).1.1.toNat =
        if fitting then gathered part.symbol symbols combined.toNat else 0) ∧
    (∀ part : Part, p.extract? combined part =
      if fitting then some (q.extractPart combined part).1.1 else none) ∧
    (texts = [] → both = ⟨0, 0, true⟩ ∧
      ∀ part : Part, (q.extractPart combined part).1 = (0, true)) := by
  intro symbols fitting q both
  have hlength : symbols.length = 64 := (exists_words h rfl combined).1
  have hspec : ∀ q : Packing, q.group.blank = p.group.blank →
      (q.matched combined).complete = fitting ∧ (fitting = true → ∀ part : Part,
        ((q.matched combined).extract part).toNat = gathered part.symbol symbols combined.toNat) :=
    fun q hq => matched_spec h hq combined
  obtain ⟨hcomplete, hfields⟩ := hspec q (p.blank_extractions calls)
  obtain ⟨hcomplete', hfields'⟩ := hspec p rfl
  have hopen : texts = [] → fitting = true ∧ ∀ part : Part,
      gathered part.symbol symbols combined.toNat = 0 := by
    rintro rfl
    have hsymbols : symbols = List.replicate 64 .any := List.reverse_replicate
    simp only [fitting, hsymbols]
    exact ⟨fits_open _ _, fun part => gathered_open (by cases part <;> decide) _ _⟩
  simp only [both, extractBoth, extractPart, extract?, fed, hcomplete, hcomplete']
  generalize q.matched combined = g at hfields
  generalize p.matched combined = g' at hfields'
  generalize fitting = b at *
  cases b with
  | true =>
    have hsame : ∀ part : Part, g'.extract part = g.extract part := fun part =>
      UInt64.toNat_inj.1 ((hfields' rfl part).trans (hfields rfl part).symm)
    have hzero : texts = [] → ∀ part : Part, g.extract part = 0 := fun ht part =>
      UInt64.toNat_inj.1 ((hfields rfl part).trans ((hopen ht).2 part))
    refine ⟨hlength, ⟨rfl, hfields rfl .address, hfields rfl .data⟩,
      fun part => ⟨rfl, hfields rfl part⟩, fun part => congrArg some (hsame part), fun ht => ?_⟩
    simp [hzero ht]
  | false =>
    refine ⟨hlength, ⟨rfl, rfl, rfl⟩, fun part => ⟨rfl, rfl⟩, fun part => rfl, fun ht => ?_⟩
    exact absurd (hopen ht).1 Bool.false_ne_true

/-- The fields of both halves lie side by side. A value that does not fit comes first. -/
theorem extract_eq_spelled_halves : ∃ p, make false false 4 ["A1D", "dd a0"] = .ok p ∧
    let q := [Extraction.both 0x200000001, .field 0x200000000 .data].foldl Extraction.apply p
    (q.extractBoth 0x70000000a).1 = ⟨3, 6, true⟩ ∧
    (q.extractPart 0x50000000a .address).1 = (0, false) := by
  have hok : (make false false 4 ["A1D", "dd a0"]).toOption.isSome = true := by decide +kernel
  cases hmake : make false false 4 ["A1D", "dd a0"] with
  | error e =>
    rw [hmake] at hok
    cases hok
  | ok p =>
    have hall := extract_eq_spelled hmake [.both 0x200000001, .field 0x200000000 .data]
    obtain ⟨-, ⟨hmatched, haddress, hvalue⟩, -⟩ := hall 0x70000000a
    obtain ⟨-, -, hpart, -⟩ := hall 0x50000000a
    obtain ⟨hmiss, hnone⟩ := hpart .address
    have hfits : fits (spelled ["A1D", "dd a0"]).reverse (0x70000000a : UInt64).toNat = true := by
      decide +kernel
    have hbad : fits (spelled ["A1D", "dd a0"]).reverse (0x50000000a : UInt64).toNat = false := by
      decide +kernel
    have hthree : gathered .address (spelled ["A1D", "dd a0"]).reverse
        (0x70000000a : UInt64).toNat = 3 := by decide +kernel
    have hsix : gathered .data (spelled ["A1D", "dd a0"]).reverse
        (0x70000000a : UInt64).toNat = 6 := by decide +kernel
    rw [hfits, if_pos rfl, hthree] at haddress
    rw [hfits, if_pos rfl, hsix] at hvalue
    rw [hfits] at hmatched
    rw [hbad] at hmiss
    rw [hbad, if_neg Bool.false_ne_true] at hnone
    refine ⟨p, rfl, ?_, Prod.ext (UInt64.toNat_inj.1 hnone) hmiss⟩
    rw [Extracted.mk.injEq]
    exact ⟨UInt64.toNat_inj.1 haddress, UInt64.toNat_inj.1 hvalue, hmatched⟩

end Packing

end Readout
