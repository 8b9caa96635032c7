import Mathlib.Data.List.TakeWhile
import Mathlib.Tactic.Ring
import Readout.Pattern.Basic

/-!
# Masks

A mask is a number with one set bit for each symbol of its field. What is gathered under a mask has
no more bits than the mask.
-/
namespace Readout

/-- The number with bit `k` set where symbol `k` has the property. -/
def weight (p : Symbol → Bool) : List Symbol → Nat
  | [] => 0
  | s :: rest => (p s).toNat + 2 * weight p rest

section Weight

variable {p : Symbol → Bool} {xs ys : List Symbol}

theorem weight_lt (p : Symbol → Bool) (xs : List Symbol) : weight p xs < 2 ^ xs.length := by
  induction xs with
  | nil => exact Nat.zero_lt_one
  | cons x xs ih =>
    have hx := Bool.toNat_lt (p x)
    rw [weight, List.length_cons, Nat.pow_succ]
    omega

theorem weight_cons_mod (p : Symbol → Bool) (x : Symbol) (xs : List Symbol) :
    weight p (x :: xs) % 2 = (p x).toNat := by
  have hx := Bool.toNat_lt (p x)
  rw [weight]
  omega

theorem weight_cons_div (p : Symbol → Bool) (x : Symbol) (xs : List Symbol) :
    weight p (x :: xs) / 2 = weight p xs := by
  have hx := Bool.toNat_lt (p x)
  rw [weight]
  omega

theorem weight_append (p : Symbol → Bool) (xs ys : List Symbol) :
    weight p (xs ++ ys) = weight p xs + 2 ^ xs.length * weight p ys := by
  induction xs with
  | nil => simp [weight]
  | cons x xs ih =>
    rw [List.cons_append, weight, weight, ih, List.length_cons, Nat.pow_succ]
    ring

theorem weight_eq_zero (h : ∀ x ∈ xs, p x = false) : weight p xs = 0 := by
  induction xs with
  | nil => rfl
  | cons x xs ih =>
    obtain ⟨hx, hxs⟩ := List.forall_mem_cons.1 h
    rw [weight, hx, ih hxs]
    rfl

theorem toNat_maskOf (h : xs.length ≤ 32) : (Pattern.maskOf p xs).toNat = weight p xs := by
  induction xs with
  | nil => rfl
  | cons x xs ih =>
    rw [List.length_cons] at h
    have hxs := ih (by omega)
    have hlt : weight p xs < 2 ^ 31 :=
      Nat.lt_of_lt_of_le (weight_lt p xs) (Nat.pow_le_pow_right (by decide) (by omega))
    have hmask : Pattern.maskOf p (x :: xs) =
        (Pattern.maskOf p xs <<< 1) ||| (if p x then 1 else 0) := rfl
    have hshift : (Pattern.maskOf p xs <<< 1).toNat = 2 * weight p xs := by
      rw [UInt32.toNat_shiftLeft, hxs]
      change weight p xs <<< 1 % 2 ^ 32 = _
      rw [Nat.shiftLeft_eq]
      omega
    rw [hmask, UInt32.toNat_or, hshift, weight]
    cases p x with
    | true =>
      change 2 * weight p xs ||| 1 = 1 + 2 * weight p xs
      rw [Nat.add_comm]
      exact (Nat.two_pow_add_eq_or_of_lt (i := 1) Nat.one_lt_two (weight p xs)).symm
    | false => simp

end Weight

namespace Bits

def ones (n : Nat) : Nat := if n = 0 then 0 else n % 2 + ones (n / 2)

theorem ones_eq (n : Nat) : ones n = n % 2 + ones (n / 2) := by
  rw [ones]
  split
  · next h =>
    subst h
    rw [ones, if_pos rfl]
  · rfl

theorem ones_and_pred {n : Nat} (h : n ≠ 0) : ones (n &&& (n - 1)) + 1 = ones n := by
  induction n using Nat.strongRecOn with
  | ind n ih =>
    have hlow : (n &&& (n - 1)) % 2 = 0 := by
      have hand := Nat.and_mod_two_eq_one (a := n) (b := n - 1)
      omega
    rw [ones_eq n, ones_eq (n &&& (n - 1)), hlow, Nat.and_div_two]
    rcases Nat.mod_two_eq_zero_or_one n with he | ho
    · have hpred : (n - 1) / 2 = n / 2 - 1 := by omega
      rw [hpred, he]
      have hhalf := ih (n / 2) (by omega) (by omega)
      omega
    · have hpred : (n - 1) / 2 = n / 2 := by omega
      rw [hpred, ho, Nat.and_self]
      omega

theorem toNat_rest {m : UInt32} (h : m ≠ 0) : (rest m).toNat = m.toNat &&& (m.toNat - 1) := by
  have hm : 0 < m.toNat := Nat.pos_of_ne_zero fun h0 => h (UInt32.toNat_inj.1 (by simpa using h0))
  have hle : (1 : UInt32) ≤ m := UInt32.le_iff_toNat_le.2 hm
  rw [rest, UInt32.toNat_and, UInt32.toNat_sub_of_le _ _ hle]
  rfl

theorem gather_lt (w m : UInt32) : (gather w m).toNat < 2 ^ ones m.toNat := by
  fun_induction gather w m with
  | case1 => exact Nat.two_pow_pos _
  | case2 m hm bit ih =>
    have hm0 : m.toNat ≠ 0 := fun h0 => hm (UInt32.toNat_inj.1 (by simpa using h0))
    have hones := ones_and_pred hm0
    rw [toNat_rest hm] at ih
    have hbit : bit.toNat < 2 ^ ones m.toNat := by
      have hone : bit.toNat < 2 ^ 1 := by
        simp only [bit]
        split <;> decide
      exact Nat.lt_of_lt_of_le hone (Nat.pow_le_pow_right (by decide) (by omega))
    have hshift : (gather w (rest m) <<< 1).toNat < 2 ^ ones m.toNat := by
      rw [UInt32.toNat_shiftLeft]
      change (gather w (rest m)).toNat <<< 1 % 2 ^ 32 < _
      rw [← hones, Nat.pow_succ, Nat.shiftLeft_eq]
      exact Nat.lt_of_le_of_lt (Nat.mod_le _ _) (Nat.mul_lt_mul_of_pos_right ih (by decide))
    rw [UInt32.toNat_or]
    exact Nat.or_lt_two_pow hbit hshift

end Bits

namespace Pattern

section Field

variable {p : Pattern} {s : Symbol}

theorem field_of_not_mem (h : s ∉ p.symbols) : p.field s = Field.none := by
  have hstart : p.symbols.dropWhile (· ≠ s) = [] :=
    List.dropWhile_eq_nil_iff.2 fun x hx => decide_eq_true fun hxs => h (hxs ▸ hx)
  rw [field]
  simp only [hstart, List.isEmpty_nil, if_true]

/-- A symbol that occurs has a field, which begins at its first place. -/
theorem field_of_mem (h : s ∈ p.symbols) : p.field s =
    { mask := maskOf (· = s) p.symbols
      bits := p.symbols.count s
      scattered := ((p.symbols.dropWhile (· ≠ s)).dropWhile (· = s)).contains s
      shift := (p.symbols.takeWhile (· ≠ s)).length } := by
  have hstart : (p.symbols.dropWhile (· ≠ s)).isEmpty = false := by
    rw [List.isEmpty_eq_false_iff, Ne, List.dropWhile_eq_nil_iff]
    exact fun hall => by simpa using hall s h
  have hlength :
      (p.symbols.takeWhile (· ≠ s)).length + (p.symbols.dropWhile (· ≠ s)).length = 32 := by
    rw [← List.length_append, List.takeWhile_append_dropWhile, p.length_eq]
  have hshift : 32 - (p.symbols.dropWhile (· ≠ s)).length =
      (p.symbols.takeWhile (· ≠ s)).length := by omega
  rw [field]
  simp only [hstart, Bool.false_eq_true, if_false, hshift]

end Field

theorem bits_field (p : Pattern) (s : Symbol) : (p.field s).bits = p.symbols.count s := by
  by_cases h : s ∈ p.symbols
  · rw [field_of_mem h]
  · rw [field_of_not_mem h, List.count_eq_zero.2 h]
    rfl

theorem toNat_mask_field (p : Pattern) (s : Symbol) :
    (p.field s).mask.toNat = weight (· = s) p.symbols := by
  by_cases h : s ∈ p.symbols
  · rw [field_of_mem h]
    exact toNat_maskOf (Nat.le_of_eq p.length_eq)
  · rw [field_of_not_mem h]
    exact (weight_eq_zero fun x hx => decide_eq_false fun hxs : x = s => h (hxs ▸ hx)).symm

theorem bits_field_le (p : Pattern) (s : Symbol) : (p.field s).bits ≤ 32 := by
  rw [bits_field, ← p.length_eq]
  exact List.count_le_length

/-- The mask from the first place of its symbol on. -/
theorem weight_shiftRight (xs : List Symbol) (s : Symbol) :
    weight (· = s) xs >>> (xs.takeWhile (· ≠ s)).length =
      weight (· = s) (xs.dropWhile (· ≠ s)) := by
  have hfront : weight (· = s) (xs.takeWhile (· ≠ s)) = 0 :=
    weight_eq_zero fun x hx => by simpa using List.mem_takeWhile_imp hx
  have happ := weight_append (· = s) (xs.takeWhile (· ≠ s)) (xs.dropWhile (· ≠ s))
  rw [List.takeWhile_append_dropWhile, hfront, Nat.zero_add] at happ
  rw [happ, Nat.shiftRight_eq_div_pow, Nat.mul_div_cancel_left _ (Nat.two_pow_pos _)]

end Pattern

end Readout
