import Readout.Proofs.Pattern.Fields

/-!
# Symbols and bits

A pattern is a list of symbols, the lowest bit first, so what it says of a word is said symbol by
symbol: the word fits if each of its bits does (`Pattern.accepts_eq`), and a field has the bits
under its symbol side by side, from the lowest one upwards (`Field.toNat_extract`).
-/
namespace Readout

/-- Only clear and set bits are asked for. -/
def Symbol.fits : Symbol → Nat → Bool
  | zero, bit => bit == 0
  | one, bit => bit == 1
  | _, _ => true

/-- Every bit of the number fits its symbol. -/
def fits : List Symbol → Nat → Bool
  | [], _ => true
  | x :: xs, n => x.fits (n % 2) && fits xs (n / 2)

/-- The bits under one symbol, side by side. -/
def gathered (s : Symbol) : List Symbol → Nat → Nat
  | [], _ => 0
  | x :: xs, n => if x = s then n % 2 + 2 * gathered s xs (n / 2) else gathered s xs (n / 2)

section Bit

theorem and_bit (n m : Nat) (b : Bool) :
    n &&& (b.toNat + 2 * m) = (n % 2) * b.toNat + 2 * (n / 2 &&& m) := by
  have hb := b.toNat_lt
  have hhalf : (b.toNat + 2 * m) / 2 = m := by omega
  have hlow : (n &&& (b.toNat + 2 * m)) % 2 = (n % 2) * b.toNat := by
    have hand := Nat.and_mod_two_eq_one (a := n) (b := b.toNat + 2 * m)
    cases b <;> simp only [Bool.toNat_false, Bool.toNat_true] at hand ⊢ <;> omega
  have hdiv : (n &&& (b.toNat + 2 * m)) / 2 = (n / 2 &&& m) := by rw [Nat.and_div_two, hhalf]
  omega

end Bit

section Symbols

variable {s : Symbol} {xs ys : List Symbol}

theorem gathered_eq_zero (h : s ∉ xs) (n : Nat) : gathered s xs n = 0 := by
  induction xs generalizing n with
  | nil => rfl
  | cons x xs ih =>
    have hx : x ≠ s := fun hx => h (hx ▸ List.mem_cons_self)
    rw [gathered, if_neg hx, ih fun hs => h (List.mem_cons_of_mem x hs)]

theorem gathered_append (s : Symbol) (xs ys : List Symbol) (n : Nat) :
    gathered s (xs ++ ys) n =
      gathered s xs n + 2 ^ xs.count s * gathered s ys (n / 2 ^ xs.length) := by
  induction xs generalizing n with
  | nil => simp [gathered]
  | cons x xs ih =>
    have hdiv : n / 2 ^ (xs.length + 1) = n / 2 / 2 ^ xs.length := by
      rw [Nat.pow_succ', Nat.div_div_eq_div_mul]
    rw [List.cons_append, gathered, gathered, ih, List.count_cons, List.length_cons, hdiv]
    by_cases hx : x = s
    · simp only [hx, if_true, beq_self_eq_true, Nat.pow_succ]
      ring
    · simp [hx]

/-- Bits above those of the symbols make no difference. -/
theorem gathered_mod (s : Symbol) (xs : List Symbol) (n : Nat) :
    gathered s xs (n % 2 ^ xs.length) = gathered s xs n := by
  induction xs generalizing n with
  | nil => rfl
  | cons x xs ih =>
    have hmod : n % 2 ^ (xs.length + 1) % 2 = n % 2 := by
      rw [Nat.pow_succ', Nat.mod_mul_right_mod]
    have hdiv : n % 2 ^ (xs.length + 1) / 2 = n / 2 % 2 ^ xs.length := by
      rw [Nat.pow_succ', Nat.mod_mul_right_div_self]
    rw [List.length_cons, gathered, gathered, hmod, hdiv, ih]

theorem gathered_lt (s : Symbol) (xs : List Symbol) (n : Nat) :
    gathered s xs n < 2 ^ xs.count s := by
  induction xs generalizing n with
  | nil => exact Nat.zero_lt_one
  | cons x xs ih =>
    have hrest := ih (n / 2)
    rw [gathered, List.count_cons]
    by_cases hx : x = s
    · simp only [hx, if_true, beq_self_eq_true, Nat.pow_succ]
      omega
    · simpa [hx] using hrest

theorem fits_append (xs ys : List Symbol) (n : Nat) :
    fits (xs ++ ys) n = (fits xs n && fits ys (n / 2 ^ xs.length)) := by
  induction xs generalizing n with
  | nil => simp [fits]
  | cons x xs ih =>
    have hdiv : n / 2 ^ (xs.length + 1) = n / 2 / 2 ^ xs.length := by
      rw [Nat.pow_succ', Nat.div_div_eq_div_mul]
    rw [List.cons_append, fits, fits, ih, List.length_cons, hdiv, Bool.and_assoc]

theorem fits_mod (xs : List Symbol) (n : Nat) : fits xs (n % 2 ^ xs.length) = fits xs n := by
  induction xs generalizing n with
  | nil => rfl
  | cons x xs ih =>
    have hmod : n % 2 ^ (xs.length + 1) % 2 = n % 2 := by
      rw [Nat.pow_succ', Nat.mod_mul_right_mod]
    have hdiv : n % 2 ^ (xs.length + 1) / 2 = n / 2 % 2 ^ xs.length := by
      rw [Nat.pow_succ', Nat.mod_mul_right_div_self]
    rw [List.length_cons, fits, fits, hmod, hdiv, ih]

theorem fits_open (n m : Nat) : fits (List.replicate n .any) m = true := by
  induction n generalizing m with
  | zero => rfl
  | succ n ih => simp [List.replicate_succ, fits, Symbol.fits, ih]

theorem gathered_open {s : Symbol} (hs : s ≠ .any) (n m : Nat) :
    gathered s (List.replicate n .any) m = 0 :=
  gathered_eq_zero (fun h => hs (List.eq_of_mem_replicate h)) m

/-- The mask and the value of a pattern ask each bit for what its symbol says. -/
theorem and_weight_eq_iff (xs : List Symbol) (n : Nat) :
    n &&& weight (fun x => x = .zero ∨ x = .one) xs = weight (· = .one) xs ↔ fits xs n = true := by
  induction xs generalizing n with
  | nil => simp [weight, fits]
  | cons x xs ih =>
    have hrest := ih (n / 2)
    have hmod := Nat.mod_two_eq_zero_or_one n
    rw [weight, weight, and_bit, fits, Bool.and_eq_true, ← hrest]
    cases x <;> simp [Symbol.fits] <;> omega

theorem gathered_and_weight (s : Symbol) (xs : List Symbol) (n : Nat) :
    gathered s xs (n &&& weight (· = s) xs) = gathered s xs n := by
  induction xs generalizing n with
  | nil => rfl
  | cons x xs ih =>
    rw [gathered, gathered, Nat.and_div_two, weight_cons_div, ih]
    by_cases hx : x = s
    · rw [if_pos hx, if_pos hx, weight, and_bit]
      simp [hx]
    · rw [if_neg hx, if_neg hx]

/-- Bits in one block are side by side where they are. -/
theorem and_weight_block (h : s ∉ xs.dropWhile (· = s)) (n : Nat) :
    n &&& weight (· = s) xs = gathered s xs n := by
  induction xs generalizing n with
  | nil => simp [weight, gathered]
  | cons x xs ih =>
    by_cases hx : x = s
    · rw [List.dropWhile_cons_of_pos (by simpa using hx)] at h
      rw [weight, and_bit, gathered, if_pos hx, ih h]
      simp [hx]
    · rw [List.dropWhile_cons_of_neg (by simpa using hx)] at h
      have hzero : weight (· = s) (x :: xs) = 0 :=
        weight_eq_zero fun y hy => decide_eq_false fun hys => h (hys ▸ hy)
      rw [hzero, gathered_eq_zero h, Nat.and_zero]

theorem gathered_dropWhile (s : Symbol) (xs : List Symbol) (n : Nat) :
    gathered s (xs.dropWhile (· ≠ s)) (n >>> (xs.takeWhile (· ≠ s)).length) = gathered s xs n := by
  have hfront : s ∉ xs.takeWhile (· ≠ s) := fun hs => by
    simpa using List.mem_takeWhile_imp hs
  have happ := gathered_append s (xs.takeWhile (· ≠ s)) (xs.dropWhile (· ≠ s)) n
  rw [List.takeWhile_append_dropWhile, gathered_eq_zero hfront,
    List.count_eq_zero_of_not_mem hfront] at happ
  rw [happ, Nat.shiftRight_eq_div_pow]
  simp

end Symbols

namespace Bits

/-- The bits of a number under the set bits of a mask, side by side. -/
def compact (w m : Nat) : Nat :=
  if m = 0 then 0
  else if m % 2 = 1 then w % 2 + 2 * compact (w / 2) (m / 2)
  else compact (w / 2) (m / 2)

theorem compact_even {m : Nat} (h : m % 2 = 0) (w : Nat) :
    compact w m = compact (w / 2) (m / 2) := by
  rw [compact]
  split
  · next hm => simp [hm, compact]
  · rw [if_neg (by omega)]

theorem compact_odd {m : Nat} (h : m % 2 = 1) (w : Nat) :
    compact w m = w % 2 + 2 * compact (w / 2) (m / 2) := by
  rw [compact, if_neg (by omega), if_pos h]

theorem compact_weight (s : Symbol) (xs : List Symbol) (w : Nat) :
    compact w (weight (· = s) xs) = gathered s xs w := by
  induction xs generalizing w with
  | nil => simp [weight, compact, gathered]
  | cons x xs ih =>
    rw [gathered, ← ih (w / 2), ← weight_cons_div (· = s) x xs]
    split
    · next hx => exact compact_odd (by simp [weight_cons_mod, hx]) w
    · next hx => exact compact_even (by simp [weight_cons_mod, hx]) w

/-- The lowest bit of a mask, as it is found with a complement of `k` bits. -/
theorem and_complement {m k : Nat} (h0 : m ≠ 0) (hk : m < 2 ^ k) (w : Nat) :
    compact w m = (if w &&& (m &&& (2 ^ k - m)) = 0 then 0 else 1) +
      2 * compact w (m &&& (m - 1)) := by
  induction k generalizing m w with
  | zero => omega
  | succ k ih =>
    rw [Nat.pow_succ] at hk ⊢
    have hlow := Nat.and_mod_two_eq_one (a := m) (b := m - 1)
    have hlow' := Nat.and_mod_two_eq_one (a := m) (b := 2 ^ k * 2 - m)
    have hword := Nat.and_mod_two_eq_one (a := w) (b := m &&& (2 ^ k * 2 - m))
    have hrest : compact w (m &&& (m - 1)) = compact (w / 2) ((m / 2) &&& ((m - 1) / 2)) := by
      rw [compact_even (by omega), Nat.and_div_two]
    have hhalf : (w &&& (m &&& (2 ^ k * 2 - m))) / 2 =
        w / 2 &&& (m / 2 &&& ((2 ^ k * 2 - m) / 2)) := by
      rw [Nat.and_div_two, Nat.and_div_two]
    rw [hrest]
    rcases Nat.mod_two_eq_zero_or_one m with heven | hodd
    · have hpred : (m - 1) / 2 = m / 2 - 1 := by omega
      have hneg : (2 ^ k * 2 - m) / 2 = 2 ^ k - m / 2 := by omega
      rw [hneg] at hhalf
      rw [compact_even heven, ih (by omega) (by omega), hpred]
      congr 1
      refine if_congr ?_ rfl rfl
      omega
    · have hpred : (m - 1) / 2 = m / 2 := by omega
      have hneg : (2 ^ k * 2 - m) / 2 = 2 ^ k - (m / 2 + 1) := by omega
      have hnone : m / 2 &&& (2 ^ k - (m / 2 + 1)) = 0 := by
        refine Nat.eq_of_testBit_eq fun i => ?_
        rw [Nat.testBit_and, Nat.testBit_two_pow_sub_succ (by omega)]
        cases Nat.testBit (m / 2) i <;> simp
      rw [hneg, hnone, Nat.and_zero] at hhalf
      rw [compact_odd hodd, hpred, Nat.and_self]
      congr 1
      split <;> omega

theorem ones_le {n k : Nat} (h : n < 2 ^ k) : ones n ≤ k := by
  induction k generalizing n with
  | zero =>
    have hn : n = 0 := by omega
    simp [hn, ones]
  | succ k ih =>
    rw [Nat.pow_succ] at h
    have hhalf := ih (n := n / 2) (by omega)
    rw [ones_eq]
    omega

theorem toNat_gather (w m : UInt32) : (gather w m).toNat = compact w.toNat m.toNat := by
  fun_induction gather w m with
  | case1 => simp [compact]
  | case2 m hm bit ih =>
    have hm0 : m.toNat ≠ 0 := fun h0 => hm (UInt32.toNat_inj.1 (by simpa using h0))
    have hones := ones_and_pred hm0
    have hle := ones_le (UInt32.toNat_lt m)
    have hlt := gather_lt w (rest m)
    rw [toNat_rest hm] at hlt ih
    have hsmall : 2 ^ ones (m.toNat &&& (m.toNat - 1)) ≤ 2 ^ 31 :=
      Nat.pow_le_pow_right (by decide) (by omega)
    have hshift : (gather w (rest m) <<< 1).toNat = 2 * (gather w (rest m)).toNat := by
      rw [UInt32.toNat_shiftLeft]
      change (gather w (rest m)).toNat <<< 1 % 2 ^ 32 = _
      rw [Nat.shiftLeft_eq]
      omega
    have hlowest : (lowest m).toNat = m.toNat &&& (2 ^ 32 - m.toNat) := by
      have hlt := UInt32.toNat_lt m
      rw [lowest, UInt32.toNat_and, UInt32.toNat_sub]
      congr 1
      change (2 ^ 32 - m.toNat + 0) % 2 ^ 32 = _
      omega
    have hbit : bit.toNat =
        if w.toNat &&& (m.toNat &&& (2 ^ 32 - m.toNat)) = 0 then 0 else 1 := by
      have hzero : w &&& lowest m = 0 ↔ w.toNat &&& (m.toNat &&& (2 ^ 32 - m.toNat)) = 0 := by
        rw [← UInt32.toNat_inj, UInt32.toNat_and, hlowest]
        rfl
      simp only [bit, hzero]
      split <;> rfl
    have hor := Nat.two_pow_add_eq_or_of_lt (i := 1) (b := bit.toNat)
      (by rw [hbit]; split <;> decide) (gather w (rest m)).toNat
    rw [Nat.pow_one] at hor
    rw [and_complement hm0 (UInt32.toNat_lt m), ← hbit, ← ih, UInt32.toNat_or, hshift, Nat.or_comm,
      ← hor, Nat.add_comm]

end Bits

namespace Pattern

/-- The symbols of a text, the highest bit first, with open ones on the left up to 32. -/
def aligned (text : String) : List Symbol :=
  let letters := (significant text).filterMap Symbol.ofByte?
  List.replicate (32 - letters.length) .any ++ letters

theorem read_eq_ok {i : Int} {text : String} {p : Pattern} (h : read i text = .ok p) :
    p.symbols = (aligned text).reverse ∧ p.wordIndex = i := by
  rw [read] at h
  split at h
  · split at h
    · cases h
    · simp [← Except.ok.inj h, ofSymbols, aligned]
  · cases h

end Pattern

theorem Pattern.accepts_eq (p : Pattern) (word : UInt32) (i : Int) :
    p.accepts word i =
      (decide (p.wordIndex < 0 ∨ p.wordIndex = i) && fits p.symbols word.toNat) := by
  have hmask : p.mask.toNat = weight (fun x => x = .zero ∨ x = .one) p.symbols :=
    toNat_maskOf (Nat.le_of_eq p.length_eq)
  have hvalue : p.value.toNat = weight (· = .one) p.symbols :=
    toNat_maskOf (Nat.le_of_eq p.length_eq)
  have hword : (word &&& p.mask == p.value) = fits p.symbols word.toNat := by
    rw [Bool.eq_iff_iff, beq_iff_eq, ← and_weight_eq_iff, ← UInt32.toNat_inj, UInt32.toNat_and,
      hmask, hvalue]
  rw [accepts, hword]

section Extract

variable (p : Pattern) (s : Symbol) (word : UInt32)

/-- The bits of a field and its mask, shifted so that its first place comes first. -/
theorem Field.toNat_block (h : s ∈ p.symbols) :
    ((word &&& (p.field s).mask) >>> UInt32.ofNat (p.field s).shift).toNat =
        word.toNat >>> (p.symbols.takeWhile (· ≠ s)).length &&&
          weight (· = s) (p.symbols.dropWhile (· ≠ s)) ∧
      ((p.field s).mask >>> UInt32.ofNat (p.field s).shift).toNat =
        weight (· = s) (p.symbols.dropWhile (· ≠ s)) := by
  have hpos : 0 < (p.symbols.dropWhile (· ≠ s)).length :=
    List.length_pos_iff.2 fun hnil => by simpa using List.dropWhile_eq_nil_iff.1 hnil s h
  have hlength :
      (p.symbols.takeWhile (· ≠ s)).length + (p.symbols.dropWhile (· ≠ s)).length = 32 := by
    rw [← List.length_append, List.takeWhile_append_dropWhile, p.length_eq]
  have hshift : (UInt32.ofNat (p.field s).shift).toNat % 32 =
      (p.symbols.takeWhile (· ≠ s)).length := by
    rw [Pattern.field_of_mem h, UInt32.toNat_ofNat']
    dsimp only
    omega
  rw [UInt32.toNat_shiftRight, UInt32.toNat_shiftRight, hshift, UInt32.toNat_and,
    p.toNat_mask_field, Nat.shiftRight_and_distrib, Pattern.weight_shiftRight]
  exact ⟨rfl, rfl⟩

/-- Gathering the bits of a field is right whether they form a block or not. -/
theorem Field.toNat_extract_scattered (scattered : Bool)
    (h : scattered = false → s ∉ (p.symbols.dropWhile (· ≠ s)).dropWhile (· = s)) :
    ({ p.field s with scattered := scattered }.extract word).toNat =
      gathered s p.symbols word.toNat := by
  by_cases hs : s ∈ p.symbols
  · obtain ⟨hblock, hmask⟩ := Field.toNat_block p s word hs
    rw [← gathered_dropWhile]
    cases scattered with
    | true =>
      rw [extract, if_pos rfl, Bits.toNat_gather, hblock, hmask, Bits.compact_weight,
        gathered_and_weight]
    | false =>
      rw [extract, if_neg Bool.false_ne_true, hblock, and_weight_block (h rfl)]
  · have hzero : ({ Field.none with scattered := scattered }.extract word) = 0 := by
      cases scattered <;> simp [extract, none, Bits.gather]
    rw [Pattern.field_of_not_mem hs, hzero, gathered_eq_zero hs]
    rfl

theorem Field.toNat_extract :
    ((p.field s).extract word).toNat = gathered s p.symbols word.toNat := by
  refine toNat_extract_scattered p s word (p.field s).scattered fun hblock => ?_
  by_cases h : s ∈ p.symbols
  · rw [Pattern.field_of_mem h] at hblock
    simpa using hblock
  · exact fun hs => h ((List.dropWhile_sublist _).subset ((List.dropWhile_sublist _).subset hs))

/-- The short cut for a block changes nothing. -/
theorem Field.extract_eq_gather :
    (p.field s).extract word = Bits.gather word (p.field s).mask := by
  rw [← UInt32.toNat_inj, toNat_extract, Bits.toNat_gather, Pattern.toNat_mask_field,
    Bits.compact_weight]

end Extract

theorem Field.extract_lt (p : Pattern) (s : Symbol) (word : UInt32) :
    ((p.field s).extract word).toNat < 2 ^ (p.field s).bits := by
  rw [toNat_extract, p.bits_field]
  exact gathered_lt s p.symbols word.toNat

end Readout
