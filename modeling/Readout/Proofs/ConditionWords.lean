import Mathlib.Data.List.DropRight
import Readout.ConditionBits
import Readout.Total

/-!
# Condition bits in words

Condition bits are laid out 64 to a word, and only whole words are cleared and counted. A write
within the length leaves what the last word has past the end clear, so the words hold the bits and
nothing else (`Packs`), and every bit is what was last written to it since the bits were cleared
(`ConditionWords.written`).
-/
namespace Readout

structure ConditionWords where
  length : Nat
  words : List UInt64
deriving DecidableEq

namespace ConditionWords

def new (length : Nat) : ConditionWords := ⟨length, List.replicate ((length + 63) / 64) 0⟩

/-- The one bit of its word that has this number, counted through all words. -/
def mask (i : Nat) : UInt64 := 1 <<< UInt64.ofNat (i % 64)

def put (i : Nat) (v : Bool) (w : UInt64) : UInt64 := if v then w ||| mask i else w &&& ~~~mask i

def set (b : ConditionWords) (i : Nat) (v : Bool) : ConditionWords :=
  { b with words := b.words.modify (i / 64) (put i v) }

def read (words : List UInt64) (i : Nat) : Bool := words[i / 64]?.any fun w => w &&& mask i != 0

def test (b : ConditionWords) (i : Nat) : Bool := i < b.length && read b.words i

def clear (b : ConditionWords) : ConditionWords := { b with words := b.words.map fun _ => 0 }

def count (b : ConditionWords) : Nat := total (b.words.map (·.toBitVec.cpop.toNat))

section Words

theorem toBitVec_mask (i : Nat) : (mask i).toBitVec = BitVec.twoPow 64 (i % 64) := by
  have hplace : i % 64 % 2 ^ 64 % 64 = i % 64 := by omega
  rw [← BitVec.toNat_inj, BitVec.toNat_twoPow, UInt64.toNat_toBitVec, mask, UInt64.toNat_shiftLeft,
    UInt64.toNat_ofNat', hplace, UInt64.toNat_one, Nat.one_shiftLeft]

theorem and_mask_ne_zero (w : UInt64) (i : Nat) :
    (w &&& mask i != 0) = w.toBitVec.getLsbD (i % 64) := by
  have hmask : BitVec.twoPow 64 (i % 64) ≠ 0#64 := fun hzero => by
    have hbit := congrArg (BitVec.getLsbD · (i % 64)) hzero
    simp [Nat.mod_lt] at hbit
  rw [Bool.eq_iff_iff, bne_iff_ne, ne_eq, ← UInt64.toBitVec_inj, UInt64.toBitVec_and,
    toBitVec_mask, BitVec.and_twoPow]
  cases w.toBitVec.getLsbD (i % 64) <;> simp [hmask]

theorem getLsbD_put (w : UInt64) (i j : Nat) (v : Bool) :
    (put i v w).toBitVec.getLsbD (j % 64) =
      if i % 64 = j % 64 then v else w.toBitVec.getLsbD (j % 64) := by
  have hlt : j % 64 < 64 := Nat.mod_lt j (by decide)
  by_cases hij : i % 64 = j % 64
  · cases v <;> simp [put, toBitVec_mask, hij, hlt]
  · have hji : j % 64 ≠ i % 64 := fun hji => hij hji.symm
    cases v <;> simp [put, toBitVec_mask, hij, hji, hlt]

theorem read_eq (words : List UInt64) (i : Nat) :
    read words i = words[i / 64]?.any (·.toBitVec.getLsbD (i % 64)) := by
  simp only [read, and_mask_ne_zero]

theorem read_modify {words : List UInt64} {i : Nat} (h : i / 64 < words.length) (j : Nat)
    (v : Bool) :
    read (words.modify (i / 64) (put i v)) j = if i = j then v else read words j := by
  rw [read_eq, read_eq]
  by_cases hword : i / 64 = j / 64
  · have hbit : i = j ↔ i % 64 = j % 64 := by omega
    rw [← hword, List.getElem?_modify_eq, List.getElem?_eq_getElem h, Option.map_eq_map,
      Option.map_some, Option.any_some, Option.any_some, getLsbD_put]
    simp only [hbit]
  · have hij : i ≠ j := fun hij => hword (hij ▸ rfl)
    rw [List.getElem?_modify_ne _ _ hword, if_neg hij]

theorem read_of_zero {words : List UInt64} (h : ∀ w ∈ words, w = 0) (i : Nat) :
    read words i = false := by
  rw [read, Option.any_eq_false]
  intro w hw
  simp [h w (List.mem_of_getElem? hw)]

theorem read_cons_add (w : UInt64) (words : List UInt64) (i : Nat) :
    read (w :: words) (64 + i) = read words i := by
  have hplace : (64 + i) / 64 = i / 64 + 1 ∧ (64 + i) % 64 = i % 64 := by omega
  rw [read_eq, read_eq, hplace.1, hplace.2, List.getElem?_cons_succ]

theorem read_cons_of_lt (w : UInt64) (words : List UInt64) {i : Nat} (h : i < 64) :
    read (w :: words) i = w.toBitVec.getLsbD i := by
  rw [read_eq, Nat.div_eq_of_lt h, Nat.mod_eq_of_lt h, List.getElem?_cons_zero, Option.any_some]

theorem cpopNatRec_eq {n : Nat} (x : BitVec n) (k acc : Nat) :
    x.cpopNatRec k acc = acc + (List.range k).countP x.getLsbD := by
  induction k generalizing acc with
  | zero => rfl
  | succ k ih =>
    rw [BitVec.cpopNatRec, ih, List.range_succ, List.countP_append, List.countP_singleton]
    cases x.getLsbD k with
    | true =>
      rw [Bool.toNat_true, if_pos rfl]
      omega
    | false => rfl

theorem toNat_cpop (w : UInt64) :
    w.toBitVec.cpop.toNat = (List.range 64).countP w.toBitVec.getLsbD := by
  rw [BitVec.toNat_cpop, cpopNatRec_eq, Nat.zero_add]

/-- Counting word by word goes through all bits of all words. -/
theorem total_cpop (words : List UInt64) : total (words.map (·.toBitVec.cpop.toNat)) =
    (List.range (64 * words.length)).countP (read words) := by
  induction words with
  | nil => rfl
  | cons w words ih =>
    have hsplit : 64 * (w :: words).length = 64 + 64 * words.length := by
      rw [List.length_cons]
      omega
    have hfirst : (List.range 64).countP (read (w :: words)) =
        (List.range 64).countP w.toBitVec.getLsbD :=
      List.countP_congr fun i hi => by rw [read_cons_of_lt w words (List.mem_range.1 hi)]
    have hlater : read (w :: words) ∘ (64 + ·) = read words := funext (read_cons_add w words)
    rw [List.map_cons, total, ih, toNat_cpop, hsplit, List.range_add, List.countP_append,
      List.countP_map, hfirst, hlater]

end Words

end ConditionWords

namespace ConditionBits

theorem count_eq_countP (c : ConditionBits) :
    c.count = (List.range c.length).countP c.test := by
  have hbits : c.bits = (List.range c.length).map c.test :=
    List.ext_getElem (by simp [length]) fun i _ _ => by simp_all [length, test]
  have hsame : (· == true) ∘ c.test = c.test := funext fun i => beq_true _
  rw [count, List.count_eq_countP, hbits, List.countP_map, hsame]

end ConditionBits

/-- The words hold just these bits. -/
structure Packs (b : ConditionWords) (c : ConditionBits) : Prop where
  length_eq : b.length = c.length
  length_words : b.words.length = (b.length + 63) / 64
  read_eq : ∀ i, ConditionWords.read b.words i = c.test i

namespace Packs

open ConditionWords

variable {b : ConditionWords} {c : ConditionBits}

theorem new (length : Nat) : Packs (.new length) (.new length) where
  length_eq := List.length_replicate.symm
  length_words := List.length_replicate
  read_eq i := by
    rw [ConditionBits.test_new]
    exact read_of_zero (fun _ => List.eq_of_mem_replicate) i

theorem set (h : Packs b c) {i : Nat} (hi : i < b.length) (v : Bool) :
    Packs (b.set i v) (c.set i v) where
  length_eq := h.length_eq.trans (c.length_set i v).symm
  length_words := (List.length_modify ..).trans h.length_words
  read_eq j := by
    have hword : i / 64 < b.words.length := by
      rw [h.length_words]
      omega
    rw [ConditionWords.set, read_modify hword, c.test_set i j v (h.length_eq ▸ hi), h.read_eq]

theorem clear (h : Packs b c) : Packs b.clear c.clear where
  length_eq := h.length_eq.trans List.length_replicate.symm
  length_words := (List.length_map ..).trans h.length_words
  read_eq i := by
    rw [c.test_clear]
    exact read_of_zero (by simp [ConditionWords.clear]) i

theorem test_eq (h : Packs b c) (i : Nat) : b.test i = c.test i := by
  rw [ConditionWords.test, h.read_eq]
  by_cases hi : i < b.length
  · rw [decide_eq_true hi, Bool.true_and]
  · rw [c.test_of_length_le (h.length_eq ▸ Nat.not_lt.1 hi), Bool.and_false]

/-- The rest of the last word has no part in the count. -/
theorem count_eq (h : Packs b c) : b.count = c.count := by
  obtain ⟨past, hpast⟩ : ∃ past, 64 * b.words.length = c.length + past := by
    refine ⟨64 * b.words.length - c.length, ?_⟩
    rw [h.length_words, h.length_eq]
    omega
  have hnone : (List.range past).countP (c.test ∘ (c.length + ·)) = 0 :=
    List.countP_eq_zero.2 fun i _ => by
      rw [Function.comp_apply, c.test_of_length_le (Nat.le_add_right c.length i)]
      exact Bool.false_ne_true
  rw [ConditionWords.count, total_cpop, funext h.read_eq, hpast, List.range_add,
    List.countP_append, List.countP_map, hnone, c.count_eq_countP, Nat.add_zero]

end Packs

inductive BitWrite
  | set (i : Nat) (v : Bool)
  | clear
deriving DecidableEq

namespace BitWrite

def apply (c : ConditionBits) : BitWrite → ConditionBits
  | set i v => c.set i v
  | clear => c.clear

def applyWords (b : ConditionWords) : BitWrite → ConditionWords
  | set i v => b.set i v
  | clear => b.clear

def clears : BitWrite → Bool
  | set .. => false
  | clear => true

/-- What is written to this bit. -/
def value? (j : Nat) : BitWrite → Option Bool
  | set i v => if i = j then some v else none
  | clear => none

/-- The writes behind the last one that clears all bits. -/
def since (ws : List BitWrite) : List BitWrite := ws.rtakeWhile (!clears ·)

/-- What was last written to this bit since the bits were cleared. -/
def latest (ws : List BitWrite) (j : Nat) : Bool :=
  ((since ws).filterMap (value? j)).getLast?.getD false

/-- The writes go to bits below the length. -/
def Within (length : Nat) (ws : List BitWrite) : Prop := ∀ i v, set i v ∈ ws → i < length

variable {length : Nat} {ws : List BitWrite}

theorem latest_set (ws : List BitWrite) (i : Nat) (v : Bool) (j : Nat) :
    latest (ws ++ [set i v]) j = if i = j then v else latest ws j := by
  have hsince : since (ws ++ [set i v]) = since ws ++ [set i v] := by simp [since, clears]
  rw [latest, hsince, List.filterMap_append]
  by_cases hij : i = j <;> simp [latest, value?, hij]

theorem latest_clear (ws : List BitWrite) (j : Nat) : latest (ws ++ [clear]) j = false := by
  have hsince : since (ws ++ [clear]) = [] := by simp [since, clears]
  rw [latest, hsince]
  rfl

/-- After writes the words hold the bits that were last written. -/
theorem packs_foldl (h : Within length ws) :
    let b := ws.foldl applyWords (.new length)
    let c := ws.foldl apply (.new length)
    b.length = length ∧ Packs b c ∧ ∀ j, c.test j = latest ws j := by
  induction ws using List.reverseRecOn with
  | nil =>
    exact ⟨rfl, Packs.new length, ConditionBits.test_new length⟩
  | append_singleton ws w ih =>
    obtain ⟨hlength, hpacks, htest⟩ := ih fun i v hw => h i v (List.mem_append_left _ hw)
    rw [List.foldl_concat, List.foldl_concat]
    cases w with
    | set i v =>
      have hi : i < length := h i v (by simp)
      refine ⟨hlength, hpacks.set (hlength.symm ▸ hi) v, fun j => ?_⟩
      rw [latest_set, ← htest]
      exact ConditionBits.test_set _ i j v (hpacks.length_eq ▸ hlength.symm ▸ hi)
    | clear =>
      refine ⟨hlength, hpacks.clear, fun j => ?_⟩
      rw [latest_clear]
      exact ConditionBits.test_clear _ j

end BitWrite

/-- After writes below the length a bit is what was last written to it since the bits were cleared,
and false if nothing was. A further write changes one bit. Nothing stands past the end, not even in
the words, so that the words count the bits that are set. Condition bits without words are the same
after the same writes. -/
theorem ConditionWords.test_written {length : Nat} {ws : List BitWrite}
    (h : BitWrite.Within length ws) :
    let b := ws.foldl BitWrite.applyWords (ConditionWords.new length)
    let c := ws.foldl BitWrite.apply (ConditionBits.new length)
    (b.length = length ∧ b.words.length = (length + 63) / 64) ∧
    (∀ i, b.test i = BitWrite.latest ws i) ∧
    (∀ i, length ≤ i → b.test i = false ∧ read b.words i = false) ∧
    (∀ i < length, ∀ v j, (b.set i v).test j = if i = j then v else b.test j) ∧
    b.count = (List.range length).countP b.test ∧
    (c.length = length ∧ c.count = b.count ∧ (∀ i, c.test i = b.test i) ∧
      ∀ i < length, ∀ v j, (c.set i v).test j = (b.set i v).test j) := by
  intro b c
  obtain ⟨hlength, hpacks, htest⟩ := BitWrite.packs_foldl h
  change b.length = length at hlength
  change Packs b c at hpacks
  have hc : c.length = length := hpacks.length_eq.symm.trans hlength
  have hsame : b.test = c.test := funext hpacks.test_eq
  have hset : ∀ i < length, ∀ v j, (b.set i v).test j = (c.set i v).test j := fun i hi v =>
    (hpacks.set (hlength.symm ▸ hi) v).test_eq
  refine ⟨⟨hlength, hlength ▸ hpacks.length_words⟩, fun i => ?_, fun i hi => ?_,
    fun i hi v j => ?_, ?_, hc, hpacks.count_eq.symm, fun i => (hpacks.test_eq i).symm,
    fun i hi v j => (hset i hi v j).symm⟩
  · rw [hsame]
    exact htest i
  · rw [hsame, hpacks.read_eq]
    have hnone := c.test_of_length_le (hc.symm ▸ hi)
    exact ⟨hnone, hnone⟩
  · rw [hset i hi, hsame]
    exact c.test_set i j v (hc.symm ▸ hi)
  · rw [hpacks.count_eq, c.count_eq_countP, hc, hsame]

/-- Two words, of which the second one has a rest. -/
theorem ConditionWords.test_written_seventy :
    let ws : List BitWrite := [.set 65 true, .set 3 true, .clear, .set 69 true, .set 64 true,
      .set 69 false, .set 2 true]
    let b := ws.foldl BitWrite.applyWords (ConditionWords.new 70)
    BitWrite.Within 70 ws ∧ b.words.length = 2 ∧
      [2, 3, 64, 65, 69].map b.test = [true, false, true, false, false] ∧ b.count = 2 := by
  intro ws b
  have hwithin : BitWrite.Within 70 ws := fun i v hw => by simp [ws] at hw; omega
  obtain ⟨⟨-, hwords⟩, htest, -, -, hcount, -⟩ := ConditionWords.test_written hwithin
  have hbits : b.test = BitWrite.latest ws := funext htest
  refine ⟨hwithin, hwords, ?_, hcount.trans ?_⟩
  · rw [hbits]
    decide
  · change (List.range 70).countP b.test = 2
    rw [hbits]
    decide

end Readout
