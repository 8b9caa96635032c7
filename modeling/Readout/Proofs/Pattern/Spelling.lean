import Mathlib.Data.Set.List
import Readout.Proofs.Pattern.Positions
import Readout.Proofs.Value.Printed

/-!
# Spelling

A text spells a pattern if its letters, in any case and without the blanks, are the letters of at
most 32 symbols; the open symbols on the left are added (`Pattern.read_eq_ok_iff`). The text of a
pattern spells that pattern, so no other pattern for the same position has it
(`Pattern.read_spells`).
-/
namespace Readout

section Bytes

theorem utf8EncodeChar_cases (c : Char) :
    (c.toNat < 128 ∧ String.utf8EncodeChar c = [UInt8.ofNat c.toNat]) ∨
      (128 ≤ c.toNat ∧ ∃ b bs, String.utf8EncodeChar c = b :: bs ∧
        ∀ x ∈ b :: bs, 128 ≤ x.toNat) := by
  have hlt := c.val.toNat_lt
  have hcode : c.toNat = c.val.toNat := rfl
  rw [hcode, String.utf8EncodeChar]
  split
  · exact .inl ⟨by omega, rfl⟩
  · refine .inr ⟨by omega, ?_⟩
    split
    · refine ⟨_, _, rfl, ?_⟩
      simp
      omega
    · split
      · refine ⟨_, _, rfl, ?_⟩
        simp
        omega
      · refine ⟨_, _, rfl, ?_⟩
        simp
        omega

theorem toNat_toUpper (c : Char) :
    c.toUpper.toNat = if 97 ≤ c.toNat ∧ c.toNat ≤ 122 then c.toNat - 32 else c.toNat := by
  have hcond : ('a'.val ≤ c.val ∧ c.val ≤ 'z'.val) ↔ 97 ≤ c.toNat ∧ c.toNat ≤ 122 := by
    rw [UInt32.le_iff_toNat_le, UInt32.le_iff_toNat_le]
    rfl
  by_cases hlower : 97 ≤ c.toNat ∧ c.toNat ≤ 122
  · have hupper : c.toUpper = _ := dif_pos (hcond.2 hlower)
    have hcode : c.toNat = c.val.toNat := rfl
    have hdiff : ('A'.val - 'a'.val).toNat = 4294967264 := rfl
    rw [if_pos hlower, hupper]
    change (c.val + ('A'.val - 'a'.val)).toNat = c.toNat - 32
    rw [UInt32.toNat_add, hdiff]
    omega
  · have hupper : c.toUpper = c := dif_neg fun h => hlower (hcond.1 h)
    rw [if_neg hlower, hupper]

theorem toUpper_eq_iff {c d : Char} (hd : d.toNat < 65) : c.toUpper = d ↔ c = d := by
  rw [← Char.toNat_inj, ← Char.toNat_inj, toNat_toUpper]
  split <;> omega

/-- A letter means its symbol in both cases. -/
theorem Symbol.ofLower?_eq_some_iff (c : Char) (s : Symbol) :
    ofLower? (lowerCode c.toNat) = some s ↔ s.letter = c.toUpper := by
  rw [← Char.toNat_inj, toNat_toUpper]
  simp only [ofLower?, lowerCode]
  cases s <;> simp [letter] <;> grind

theorem ofByte?_of_high {b : UInt8} (h : 128 ≤ b.toNat) : Symbol.ofByte? b = none := by
  grind [Symbol.ofByte?, Symbol.lowerCode, Symbol.ofLower?]

theorem letter_lt (s : Symbol) : s.letter.toNat < 128 := by cases s <;> decide

/-- The bytes of a text mean symbols if its letters do. -/
theorem map_ofByte?_eq_iff (cs : List Char) (ls : List Symbol) :
    (cs.flatMap String.utf8EncodeChar).map Symbol.ofByte? = ls.map some ↔
      ls.map Symbol.letter = cs.map Char.toUpper := by
  induction cs generalizing ls with
  | nil => simp
  | cons c cs ih =>
    rcases utf8EncodeChar_cases c with ⟨hc, hone⟩ | ⟨hc, b, bs, hmore, hhigh⟩
    · have hbyte : Symbol.ofByte? (UInt8.ofNat c.toNat) =
          Symbol.ofLower? (Symbol.lowerCode c.toNat) := by
        rw [Symbol.ofByte?, UInt8.toNat_ofNat', Nat.mod_eq_of_lt (by omega)]
      cases ls with
      | nil => simp [hone]
      | cons s ls => simp [hone, hbyte, ih, Symbol.ofLower?_eq_some_iff]
    · -- a letter beyond the first 128 fails with its first byte, and it is no symbol's letter
      have hupper : c.toUpper.toNat = c.toNat := by rw [toNat_toUpper, if_neg (by omega)]
      have hnone := ofByte?_of_high (hhigh b List.mem_cons_self)
      cases ls with
      | nil => simp [hmore]
      | cons s ls =>
        have hletter : s.letter ≠ c.toUpper := fun h => by
          have hs := letter_lt s
          rw [h, hupper] at hs
          omega
        simp [hmore, hnone, hletter]

theorem letter_injective : Function.Injective Symbol.letter := by
  intro a b h
  cases a <;> cases b <;> simp_all [Symbol.letter]

theorem mem_letters_iff (c : Char) :
    c.toUpper ∈ ['0', '1', 'X', 'A', 'D'] ↔ c.toUpper ∈ Set.range Symbol.letter := by
  constructor
  · intro h
    simp only [List.mem_cons, List.not_mem_nil, or_false] at h
    rcases h with h | h | h | h | h
    exacts [⟨.zero, h.symm⟩, ⟨.one, h.symm⟩, ⟨.any, h.symm⟩, ⟨.address, h.symm⟩, ⟨.data, h.symm⟩]
  · rintro ⟨s, hs⟩
    cases s <;> simp [← hs, Symbol.letter]

theorem utf8ByteSize_ofList {cs : List Char} (h : ∀ c ∈ cs, c.toNat < 128) :
    (String.ofList cs).utf8ByteSize = cs.length := by
  have hsize : (String.ofList cs).utf8ByteSize = (cs.flatMap String.utf8EncodeChar).length := by
    have hbytes := toList_toUTF8 (String.ofList cs)
    rw [String.toList_ofList, toList_byteArray] at hbytes
    rw [← hbytes]
    rfl
  have hone : ∀ c ∈ cs, (String.utf8EncodeChar c).length = 1 := fun c hc => by
    rcases utf8EncodeChar_cases c with ⟨-, hone⟩ | ⟨hge, -⟩
    · rw [hone]
      rfl
    · exact absurd (h c hc) (by omega)
  rw [hsize, List.length_flatMap, List.map_congr_left hone]
  simp

theorem fits_iff_letter {c : Char} {s : Symbol} (h : s.letter = c.toUpper) (b : Bool) :
    s.fits b.toNat = true ↔ ¬ (c = '0' ∧ b = true) ∧ ¬ (c = '1' ∧ b = false) := by
  have hzero : c = '0' ↔ s = .zero := by
    rw [← toUpper_eq_iff (by decide), ← h]
    cases s <;> decide
  have hone : c = '1' ↔ s = .one := by
    rw [← toUpper_eq_iff (by decide), ← h]
    cases s <;> decide
  rw [hzero, hone]
  cases s <;> cases b <;> simp [Symbol.fits]

end Bytes

section Symbols

theorem fits_iff_testBit (xs : List Symbol) (n : Nat) :
    fits xs n = true ↔
      ∀ (k : Nat) (x : Symbol), xs[k]? = some x → x.fits (n.testBit k).toNat = true := by
  induction xs generalizing n with
  | nil => simp [fits]
  | cons x xs ih =>
    have hlow : (n.testBit 0).toNat = n % 2 := by
      rw [Nat.testBit_zero]
      rcases Nat.mod_two_eq_zero_or_one n with h | h <;> simp [h]
    rw [fits, Bool.and_eq_true, ih, ← hlow]
    constructor
    · rintro ⟨hx, hxs⟩ (_ | k) y hy
      · exact Option.some.inj hy ▸ hx
      · rw [Nat.testBit_succ]
        exact hxs k y hy
    · intro h
      refine ⟨h 0 x rfl, fun k y hy => ?_⟩
      rw [← Nat.testBit_succ]
      exact h (k + 1) y hy

theorem testBit_weight (p : Symbol → Bool) (xs : List Symbol) (k : Nat) :
    (weight p xs).testBit k = xs[k]?.any p := by
  induction xs generalizing k with
  | nil => simp [weight]
  | cons x xs ih =>
    cases k with
    | zero =>
      rw [Nat.testBit_zero, weight_cons_mod]
      cases h : p x <;> simp [h]
    | succ k => rw [Nat.testBit_succ, weight_cons_div, ih, List.getElem?_cons_succ]

end Symbols

namespace Pattern

/-- The letters of a text, the highest bit first. -/
def letters (text : String) : List Char := text.toList.filter (· ≠ ' ')

theorem significant_eq (text : String) :
    significant text = (letters text).flatMap String.utf8EncodeChar := by
  rw [significant, toList_toUTF8, letters, List.filter_flatMap]
  induction text.toList with
  | nil => rfl
  | cons c cs ih =>
    rw [List.flatMap_cons, ih]
    by_cases hblank : c = ' '
    · subst hblank
      rfl
    · have hkeep : (String.utf8EncodeChar c).filter (· ≠ 32) = String.utf8EncodeChar c := by
        refine List.filter_eq_self.2 fun b hb => decide_eq_true fun h32 => ?_
        subst h32
        rcases utf8EncodeChar_cases c with ⟨hc, hone⟩ | ⟨-, b, bs, hmore, hhigh⟩
        · rw [hone, List.mem_singleton, ← UInt8.toNat_inj, UInt8.toNat_ofNat',
            Nat.mod_eq_of_lt (by omega)] at hb
          exact hblank (Char.toNat_inj.1 hb.symm)
        · exact absurd (hhigh 32 (hmore ▸ hb)) (by decide)
      rw [hkeep, List.filter_cons_of_pos (by simpa using hblank), List.flatMap_cons]

theorem map_filterMap_of_forall {bs : List UInt8} (h : ∀ b ∈ bs, (Symbol.ofByte? b).isSome) :
    bs.map Symbol.ofByte? = (bs.filterMap Symbol.ofByte?).map some := by
  induction bs with
  | nil => rfl
  | cons b bs ih =>
    obtain ⟨hb, hbs⟩ := List.forall_mem_cons.1 h
    obtain ⟨s, hs⟩ := Option.isSome_iff_exists.1 hb
    rw [List.map_cons, ih hbs, List.filterMap_cons, hs]
    rfl

theorem filterMap_of_map {bs : List UInt8} {ls : List Symbol}
    (h : bs.map Symbol.ofByte? = ls.map some) : bs.filterMap Symbol.ofByte? = ls := by
  have hid := congrArg (List.filterMap id) h
  rwa [List.filterMap_map, List.filterMap_map, Function.id_comp, Function.id_comp,
    List.filterMap_some] at hid

/-- A text is read as a pattern if its letters are those of at most 32 symbols. -/
theorem read_eq_ok_iff (text : String) (i : Int) (p : Pattern) :
    read i text = .ok p ↔ ∃ (ls : List Symbol) (h : ls.length ≤ 32),
      ls.map Symbol.letter = (letters text).map Char.toUpper ∧ p = ofSymbols ls h i := by
  simp only [← map_ofByte?_eq_iff, ← significant_eq]
  constructor
  · intro h
    rw [read] at h
    split at h
    · next hlength =>
      split at h
      · cases h
      · next hfind =>
        have hall : ∀ b ∈ significant text, (Symbol.ofByte? b).isSome := fun b hb => by
          have hnone := List.find?_eq_none.1 hfind b hb
          exact Option.isSome_iff_ne_none.2 (by simpa using hnone)
        exact ⟨_, (List.length_filterMap_le _ _).trans hlength, map_filterMap_of_forall hall,
          (Except.ok.inj h).symm⟩
    · cases h
  · rintro ⟨ls, hlength, hmap, rfl⟩
    have hsize := congrArg List.length hmap
    rw [List.length_map, List.length_map] at hsize
    have hfind : (significant text).find? (fun b => (Symbol.ofByte? b).isNone) = none := by
      refine List.find?_eq_none.2 fun b hb => ?_
      have hb := List.mem_map_of_mem (f := Symbol.ofByte?) hb
      rw [hmap, List.mem_map] at hb
      obtain ⟨s, -, hs⟩ := hb
      simp [← hs]
    rw [read, dif_pos (hsize ▸ hlength)]
    split
    · next hsome => rw [hfind] at hsome; cases hsome
    · simp only [filterMap_of_map hmap]
      rfl

theorem filter_nibbles (cs : List Char) :
    (nibbles cs).filter (· ≠ ' ') = cs.filter (· ≠ ' ') := by
  fun_induction nibbles cs with
  | case1 a b c d e rest ih => simp only [List.filter_cons, ih, ne_eq, not_true_eq_false,
      decide_false, Bool.false_eq_true, if_false]
  | case2 => rfl

theorem letters_text (p : Pattern) : letters p.text = p.symbols.reverse.map Symbol.letter := by
  rw [letters, text, String.toList_ofList, filter_nibbles, List.filter_eq_self]
  intro c hc
  obtain ⟨s, -, rfl⟩ := List.mem_map.1 hc
  cases s <;> rfl

/-- The text of a pattern is read as that pattern. -/
theorem read_text (p : Pattern) : read p.wordIndex p.text = .ok p := by
  refine (read_eq_ok_iff _ _ _).2 ⟨p.symbols.reverse, ?_, ?_, ?_⟩
  · rw [List.length_reverse, p.length_eq]
  · rw [letters_text, List.map_map]
    exact List.map_congr_left fun s _ => by cases s <;> rfl
  · obtain ⟨symbols, hlength, index⟩ := p
    simp [ofSymbols, hlength]

theorem text_injective {p q : Pattern} (hindex : p.wordIndex = q.wordIndex) (h : p.text = q.text) :
    p = q := by
  have hp := p.read_text
  rw [hindex, h, q.read_text] at hp
  exact (Except.ok.inj hp).symm

section Read

variable {text : String} {ls : List Symbol} {h : ls.length ≤ 32} {i : Int}

theorem accepts_ofSymbols_iff (word : UInt32) (j : Int) :
    (ofSymbols ls h i).accepts word j = true ↔ (i < 0 ∨ i = j) ∧
      ∀ (k : Nat) (x : Symbol), ls.reverse[k]? = some x →
        x.fits (word.toNat.testBit k).toNat = true := by
  rw [accepts_eq, ofSymbols, fits_append, fits_open, Bool.and_true, Bool.and_eq_true,
    decide_eq_true_eq, fits_iff_testBit]

theorem testBit_mask_ofSymbols {s : Symbol} (hs : s ≠ .any) (k : Nat) :
    ((ofSymbols ls h i).field s).mask.toNat.testBit k = ls.reverse[k]?.any (· = s) := by
  have hopen : weight (· = s) (List.replicate (32 - ls.length) .any) = 0 :=
    weight_eq_zero fun x hx => decide_eq_false fun hxs : x = s =>
      hs (hxs ▸ List.eq_of_mem_replicate hx)
  rw [toNat_mask_field, ofSymbols, weight_append, hopen, Nat.mul_zero, Nat.add_zero, testBit_weight]

theorem reverse_cases {cs : List Char} (hmap : ls.map Symbol.letter = cs.map Char.toUpper)
    (k : Nat) : (ls.reverse[k]? = none ∧ cs.reverse[k]? = none) ∨
      ∃ s c, ls.reverse[k]? = some s ∧ cs.reverse[k]? = some c ∧ s.letter = c.toUpper := by
  have hk : ls.reverse[k]?.map Symbol.letter = cs.reverse[k]?.map Char.toUpper := by
    rw [← List.getElem?_map, ← List.getElem?_map, List.map_reverse, List.map_reverse, hmap]
  cases hs : ls.reverse[k]? <;> cases hc : cs.reverse[k]? <;> simp_all

theorem read_isOk_iff (text : String) (i : Int) :
    (∃ p, read i text = .ok p) ↔ (String.ofList (letters text)).utf8ByteSize ≤ 32 ∧
      ∀ c ∈ letters text, c.toUpper ∈ ['0', '1', 'X', 'A', 'D'] := by
  have hrange : (∃ ls : List Symbol, ls.map Symbol.letter = (letters text).map Char.toUpper) ↔
      ∀ c ∈ letters text, c.toUpper ∈ ['0', '1', 'X', 'A', 'D'] := by
    have hmap := Set.ext_iff.1 (Set.range_list_map Symbol.letter) ((letters text).map Char.toUpper)
    simp only [Set.mem_range, Set.mem_ofPred_eq, List.forall_mem_map] at hmap
    rw [hmap]
    simp only [mem_letters_iff, Set.mem_range]
  have hsize : ∀ ls : List Symbol, ls.map Symbol.letter = (letters text).map Char.toUpper →
      (String.ofList (letters text)).utf8ByteSize = ls.length := fun ls hmap => by
    have hlength := congrArg List.length hmap
    rw [List.length_map, List.length_map] at hlength
    rw [hlength]
    refine utf8ByteSize_ofList fun c hc => ?_
    have hmem := List.mem_map_of_mem (f := Char.toUpper) hc
    rw [← hmap, List.mem_map] at hmem
    obtain ⟨s, -, hs⟩ := hmem
    have hcode := congrArg Char.toNat hs
    have hlt := letter_lt s
    rw [toNat_toUpper] at hcode
    split at hcode <;> omega
  rw [← hrange]
  constructor
  · rintro ⟨p, hp⟩
    obtain ⟨ls, hlength, hmap, -⟩ := (read_eq_ok_iff _ _ _).1 hp
    exact ⟨(hsize ls hmap).trans_le hlength, ls, hmap⟩
  · rintro ⟨hlength, ls, hmap⟩
    exact ⟨_, (read_eq_ok_iff _ _ _).2 ⟨ls, (hsize ls hmap).symm.trans_le hlength, hmap, rfl⟩⟩

end Read

/-- A text is read if it has at most 32 bytes besides blanks and all of them are pattern letters.
The pattern then asks the bits for what the letters say from the right and gathers those that bear
a marker; its own text spells it and no other pattern for the position. -/
theorem read_spells (text : String) (i : Int) :
    ((∃ p, read i text = .ok p) ↔ (String.ofList (letters text)).utf8ByteSize ≤ 32 ∧
        ∀ c ∈ letters text, c.toUpper ∈ ['0', '1', 'X', 'A', 'D']) ∧
      ∀ p, read i text = .ok p →
        (∀ word j, p.accepts word j = true ↔ (i < 0 ∨ i = j) ∧
          ∀ (k : Nat) (c : Char), (letters text).reverse[k]? = some c →
            ¬ (c = '0' ∧ word.toNat.testBit k = true) ∧
            ¬ (c = '1' ∧ word.toNat.testBit k = false)) ∧
        (∀ marker ∈ ['A', 'a', 'D', 'd'], ∀ k, (p.entry marker).mask.toNat.testBit k = true ↔
          ∃ c, (letters text).reverse[k]? = some c ∧ c.toUpper = marker.toUpper) ∧
        read i p.text = .ok p ∧ ∀ q : Pattern, q.wordIndex = i → q.text = p.text → q = p := by
  refine ⟨read_isOk_iff text i, fun p hp => ?_⟩
  obtain ⟨ls, hlength, hmap, rfl⟩ := (read_eq_ok_iff _ _ _).1 hp
  refine ⟨fun word j => ?_, fun marker hmarker k => ?_, read_text _,
    fun q hq htext => text_injective hq htext⟩
  · rw [accepts_ofSymbols_iff]
    refine and_congr_right fun _ => forall_congr' fun k => ?_
    rcases reverse_cases hmap k with ⟨hs, hc⟩ | ⟨s, c, hs, hc, hletter⟩
    · simp [hs, hc]
    · simp only [hs, hc, Option.some.injEq, forall_eq', fits_iff_letter hletter]
  · obtain ⟨s, hs, hsymbol, hletter⟩ : ∃ s : Symbol, s ≠ .any ∧ Symbol.ofMarker? marker = some s ∧
        s.letter = marker.toUpper := by
      simp only [List.mem_cons, List.not_mem_nil, or_false] at hmarker
      rcases hmarker with rfl | rfl | rfl | rfl
      exacts [⟨.address, nofun, rfl, rfl⟩, ⟨.address, nofun, rfl, rfl⟩, ⟨.data, nofun, rfl, rfl⟩,
        ⟨.data, nofun, rfl, rfl⟩]
    rw [entry_of_some hsymbol, testBit_mask_ofSymbols hs, ← hletter]
    rcases reverse_cases hmap k with ⟨hx, hc⟩ | ⟨x, c, hx, hc, hupper⟩
    · simp [hx, hc]
    · simp [hx, hc, ← hupper, letter_injective.eq_iff]

theorem read_spells_marked : ∃ p, read 2 "1 aXd0" = .ok p ∧
    (p.entry 'A').mask.toNat.testBit 3 = true ∧ read 2 p.text = .ok p := by
  have hletters : letters "1 aXd0" = ['1', 'a', 'X', 'd', '0'] := by decide +kernel
  -- letter by letter, since the statement for all characters may be decided by trying them all
  have hupper : ∀ c ∈ letters "1 aXd0", c.toUpper ∈ ['0', '1', 'X', 'A', 'D'] := by
    simp only [hletters, List.forall_mem_cons, List.not_mem_nil, false_imp_iff, implies_true]
    decide +kernel
  obtain ⟨p, hp⟩ := (read_spells "1 aXd0" 2).1.2 ⟨by decide +kernel, hupper⟩
  obtain ⟨-, hmask, htext, -⟩ := (read_spells "1 aXd0" 2).2 p hp
  exact ⟨p, hp, (hmask 'A' (by decide) 3).2 ⟨'a', by decide +kernel, by decide +kernel⟩, htext⟩

end Pattern

end Readout
