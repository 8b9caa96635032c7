import Mathlib.Data.Nat.BitIndices
import Mathlib.Data.Nat.Bitwise
import Readout.Proofs.Pattern.Gathering

/-!
# Positions of bits

Gathering under a mask goes through the positions of its set bits, from the lowest one up: bit `k`
of the result is the bit of the word at position number `k` (`Bits.testBit_gather`). Scattering goes
through the same positions the other way. Both are what a loop makes that takes the lowest bit off
the mask in every round while a second bit goes up from the low end, and they undo each other under
the mask (`Bits.gather_scatter`). A field takes a short cut where its positions follow each other,
which cannot be told from gathering (`Pattern.extract_entry`).
-/
namespace Readout

namespace Bits

theorem testBit_compact (w m k : Nat) :
    (compact w m).testBit k = m.bitIndices[k]?.any w.testBit := by
  induction m using Nat.strongRecOn generalizing w k with
  | ind m ih =>
    rcases Nat.eq_zero_or_pos m with rfl | hpos
    · simp [compact]
    · have hhalf := ih (m / 2) (by omega) (w / 2)
      have hshift : ∀ is : List Nat, ∀ k : Nat, (is.map (· + 1))[k]?.any w.testBit =
          is[k]?.any (w / 2).testBit := fun is k => by
        simp [List.getElem?_map, Option.any_map, Nat.testBit_succ]
      rcases Nat.mod_two_eq_zero_or_one m with heven | hodd
      · have hm : m = 2 * (m / 2) := by omega
        rw [compact_even heven, hhalf]
        conv_rhs => rw [hm, Nat.bitIndices_two_mul, hshift]
      · have hm : m = 2 * (m / 2) + 1 := by omega
        have hlow : w % 2 < 2 := Nat.mod_lt w (by decide)
        rw [compact_odd hodd]
        conv_rhs => rw [hm, Nat.bitIndices_two_mul_add_one]
        cases k with
        | zero => simp [Nat.testBit_zero]
        | succ k =>
          have hdiv : (w % 2 + 2 * compact (w / 2) (m / 2)) / 2 = compact (w / 2) (m / 2) := by
            omega
          rw [Nat.testBit_succ, hdiv, hhalf, List.getElem?_cons_succ, hshift]

/-- Bits are gathered by the positions of the mask, and nothing stands above them. -/
theorem testBit_gather (w m : UInt32) (k : Nat) :
    (gather w m).toNat.testBit k = m.toNat.bitIndices[k]?.any w.toNat.testBit := by
  rw [toNat_gather, testBit_compact]

theorem bitIndices_and_pred {n : Nat} (h : n ≠ 0) :
    ∃ i, n.bitIndices = i :: (n &&& (n - 1)).bitIndices := by
  induction n using Nat.strongRecOn with
  | ind n ih =>
    have hlow := Nat.and_mod_two_eq_one (a := n) (b := n - 1)
    have hrest : n &&& (n - 1) = 2 * (n / 2 &&& (n - 1) / 2) := by
      rw [← Nat.and_div_two]
      omega
    rcases Nat.mod_two_eq_zero_or_one n with heven | hodd
    · have hn : n = 2 * (n / 2) := by omega
      have hpred : (n - 1) / 2 = n / 2 - 1 := by omega
      obtain ⟨i, hi⟩ := ih (n / 2) (by omega) (by omega)
      refine ⟨i + 1, ?_⟩
      rw [hrest, hpred, Nat.bitIndices_two_mul]
      conv_lhs => rw [hn, Nat.bitIndices_two_mul, hi, List.map_cons]
    · have hn : n = 2 * (n / 2) + 1 := by omega
      have hpred : (n - 1) / 2 = n / 2 := by omega
      refine ⟨0, ?_⟩
      rw [hrest, hpred, Nat.and_self, Nat.bitIndices_two_mul]
      conv_lhs => rw [hn, Nat.bitIndices_two_mul_add_one]

/-- To take the lowest bit off is to clear it. -/
theorem xor_lowest (m : UInt32) : m ^^^ lowest m = rest m := by
  -- the predecessor is the negated mask with all bits turned
  have hpred : m - 1 = ~~~(0 - m) := by
    rw [UInt32.zero_sub, ← UInt32.toBitVec_inj, UInt32.toBitVec_not, UInt32.toBitVec_neg,
      BitVec.not_neg]
    rfl
  rw [lowest, rest, hpred, ← UInt32.toBitVec_inj, UInt32.toBitVec_xor, UInt32.toBitVec_and,
    UInt32.toBitVec_and, UInt32.toBitVec_not]
  ext i hi
  rw [BitVec.getElem_xor, BitVec.getElem_and, BitVec.getElem_and, BitVec.getElem_not]
  cases m.toBitVec[i] <;> cases (0 - m).toBitVec[i] <;> rfl

/-- The lowest bit of a mask stands at its first position, and only this one is not left. -/
theorem exists_lowest {m : UInt32} (h : m ≠ 0) : ∃ p,
    m.toNat.bitIndices = p :: (rest m).toNat.bitIndices ∧ (lowest m).toNat = 2 ^ p ∧
      (rest m).toNat.testBit p = false ∧
      ∀ j, m.toNat.testBit j = (decide (p = j) || (rest m).toNat.testBit j) := by
  have hm : m.toNat ≠ 0 := fun h0 => h (UInt32.toNat_inj.1 (by simpa using h0))
  obtain ⟨p, hp⟩ := bitIndices_and_pred hm
  rw [← toNat_rest h] at hp
  have hgone : (rest m).toNat.testBit p = false := by
    have hnodup := m.toNat.bitIndices_nodup
    rw [hp] at hnodup
    rw [← Bool.not_eq_true, ← Nat.mem_bitIndices]
    exact (List.nodup_cons.1 hnodup).1
  have hbits : ∀ j, m.toNat.testBit j = (decide (p = j) || (rest m).toNat.testBit j) := fun j => by
    rw [Bool.eq_iff_iff, ← Nat.mem_bitIndices, hp, List.mem_cons, Nat.mem_bitIndices,
      Bool.or_eq_true, decide_eq_true_eq, eq_comm]
  refine ⟨p, hp, Nat.eq_of_testBit_eq fun j => ?_, hgone, hbits⟩
  have hlowest : lowest m = m ^^^ rest m := by
    rw [← xor_lowest, ← UInt32.xor_assoc, UInt32.xor_self, UInt32.zero_xor]
  rw [hlowest, UInt32.toNat_xor, Nat.testBit_xor, hbits, Nat.testBit_two_pow]
  by_cases hj : p = j
  · rw [← hj, hgone]
    simp
  · simp [hj]

/-- A word with one bit asks for this bit of another word. -/
theorem and_eq_zero_iff {b : UInt32} {i : Nat} (hb : b.toNat = 2 ^ i) (w : UInt32) :
    b &&& w = 0 ↔ w.toNat.testBit i = false := by
  rw [← UInt32.toNat_inj, UInt32.toNat_and, hb, Nat.and_comm, Nat.and_two_pow]
  cases w.toNat.testBit i <;> simp

/-- Bits are scattered to the positions of the mask, and nothing stands beside them. -/
theorem testBit_scatter (w m : UInt32) (i : Nat) : (scatter w m).toNat.testBit i =
    (m.toNat.testBit i && w.toNat.testBit (m.toNat.bitIndices.idxOf i)) := by
  fun_induction scatter w m with
  | case1 => simp
  | case2 w m hm bit ih =>
    obtain ⟨p, hp, hlowest, hgone, hmask⟩ := exists_lowest hm
    have hshift : ∀ j, (w >>> 1).toNat.testBit j = w.toNat.testBit (j + 1) := fun j => by
      rw [UInt32.toNat_shiftRight]
      change (w.toNat >>> 1).testBit j = _
      rw [Nat.testBit_shiftRight, Nat.add_comm]
    have hbit : bit.toNat.testBit i = (decide (p = i) && w.toNat.testBit 0) := by
      have hzero : w &&& 1 = 0 ↔ w.toNat.testBit 0 = false := by
        rw [UInt32.and_comm]
        exact and_eq_zero_iff rfl w
      cases hw : w.toNat.testBit 0 <;> simp [bit, hzero, hw, hlowest, Nat.testBit_two_pow]
    rw [UInt32.toNat_or, Nat.testBit_or, hbit, ih, hshift, hmask, hp, List.idxOf_cons]
    by_cases hi : p = i
    · rw [← hi, hgone]
      simp
    · simp [hi, beq_false_of_ne hi]

/-- Bits go from their positions under a mask to the low end of a word, or the other way. -/
inductive Way
  | gathering
  | scattering

/-- Where a bit comes from and where it goes to, by its places under the mask and at the low end. -/
def Way.route {α : Type} : Way → α → α → α × α
  | gathering, place, low => (place, low)
  | scattering, place, low => (low, place)

/-- What is held between two rounds of a loop: the rest of the mask, the place at the low end that
is next, and the bits that have been put down. -/
structure Loop where
  mask : UInt32
  cursor : UInt32
  result : UInt32

namespace Loop

def start (m : UInt32) : Loop := ⟨m, 1, 0⟩

/-- Takes the lowest bit off the mask and brings one bit of the word to its new place. -/
def round (way : Way) (w : UInt32) (l : Loop) : Loop :=
  let (origin, target) := way.route (lowest l.mask) l.cursor
  { mask := l.mask ^^^ lowest l.mask
    cursor := l.cursor <<< 1
    result := if origin &&& w = 0 then l.result else l.result ||| target }

/-- The loop goes through so many rounds and ends with this result. -/
inductive Ends (way : Way) (w : UInt32) : Loop → Nat → UInt32 → Prop
  | done {l : Loop} (h : l.mask = 0) : Ends way w l 0 l.result
  | step {l : Loop} {n : Nat} {z : UInt32} (h : l.mask ≠ 0)
    (hr : Ends way w (l.round way w) n z) : Ends way w l (n + 1) z

variable {way : Way} {w : UInt32} {l : Loop} {k : Nat}

theorem mask_round (way : Way) (w : UInt32) (l : Loop) :
    (l.round way w).mask = rest l.mask := xor_lowest l.mask

theorem cursor_round (hl : l.cursor.toNat = 2 ^ k % 2 ^ 32) :
    (l.round way w).cursor.toNat = 2 ^ (k + 1) % 2 ^ 32 := by
  change (l.cursor <<< 1).toNat = _
  rw [UInt32.toNat_shiftLeft, hl]
  change (2 ^ k % 2 ^ 32) <<< 1 % 2 ^ 32 = _
  have hpow : 2 ^ (k + 1) = 2 ^ k * 2 := pow_succ 2 k
  rw [Nat.shiftLeft_eq, Nat.pow_one, Nat.mod_mul_mod, hpow]

/-- One round brings one bit to its place. -/
theorem testBit_round {p : Nat} (hp : (lowest l.mask).toNat = 2 ^ p)
    (hk : l.cursor.toNat = 2 ^ k) (j : Nat) :
    (l.round way w).result.toNat.testBit j = (l.result.toNat.testBit j ||
      ((way.route p k).2 == j && w.toNat.testBit (way.route p k).1)) := by
  have hroute : (way.route (lowest l.mask) l.cursor).1.toNat = 2 ^ (way.route p k).1 ∧
      (way.route (lowest l.mask) l.cursor).2.toNat = 2 ^ (way.route p k).2 := by
    cases way with
    | gathering => exact ⟨hp, hk⟩
    | scattering => exact ⟨hk, hp⟩
  have hnone := and_eq_zero_iff hroute.1 w
  rw [round]
  dsimp only
  cases hw : w.toNat.testBit (way.route p k).1 with
  | true =>
    rw [if_neg (by simp [hnone, hw]), UInt32.toNat_or, hroute.2, Nat.testBit_or,
      Nat.testBit_two_pow, Bool.and_true, beq_eq_decide]
  | false => rw [if_pos (hnone.2 hw), Bool.and_false, Bool.or_false]

/-- A loop goes through as many rounds as its mask has bits, and its rounds put down the bits of
these positions, one after the other. -/
theorem exists_ends (way : Way) (w : UInt32) (hl : l.cursor.toNat = 2 ^ k % 2 ^ 32)
    (hk : k + l.mask.toNat.bitIndices.length ≤ 32) :
    ∃ z, Ends way w l l.mask.toNat.bitIndices.length z ∧
      ∀ j, z.toNat.testBit j = (l.result.toNat.testBit j ||
        (l.mask.toNat.bitIndices.zipIdx k).any fun p =>
          ((way.route p.1 p.2).2 == j) && w.toNat.testBit (way.route p.1 p.2).1) := by
  induction his : l.mask.toNat.bitIndices generalizing l k with
  | nil =>
    have hm : l.mask = 0 := by
      by_contra hm
      obtain ⟨p, hp, -⟩ := exists_lowest hm
      rw [his] at hp
      cases hp
    exact ⟨l.result, .done hm, by simp⟩
  | cons p is ih =>
    have hm : l.mask ≠ 0 := fun hm => by
      rw [hm] at his
      simp at his
    obtain ⟨q, hq, hlowest, -⟩ := exists_lowest hm
    rw [his, List.length_cons] at hk
    rw [his] at hq
    obtain ⟨rfl, hrest⟩ := List.cons.inj hq
    rw [← mask_round way w] at hrest
    obtain ⟨z, hends, hz⟩ := ih (cursor_round hl) (by rw [← hrest]; omega) hrest.symm
    have hcursor : l.cursor.toNat = 2 ^ k :=
      hl.trans (Nat.mod_eq_of_lt (Nat.pow_lt_pow_right (by decide) (by omega)))
    refine ⟨z, .step hm hends, fun j => ?_⟩
    rw [hz, testBit_round hlowest hcursor, List.zipIdx_cons, List.any_cons, Bool.or_assoc]

end Loop

/-- The positions of the set bits of a word, by going through all of its bits. -/
theorem bitIndices_eq_filter {n k : Nat} (h : n < 2 ^ k) :
    n.bitIndices = (List.range k).filter n.testBit := by
  refine Nat.bitIndices_sorted.eq_of_mem_iff (List.pairwise_lt_range.filter _).sortedLT fun i => ?_
  rw [Nat.mem_bitIndices, List.mem_filter, List.mem_range, iff_and_self]
  intro hi
  have hlt := Nat.lt_of_le_of_lt (Nat.ge_two_pow_of_testBit hi) h
  exact (Nat.pow_lt_pow_iff_right (by decide)).1 hlt

theorem length_bitIndices {n k : Nat} (h : n < 2 ^ k) :
    n.bitIndices.length = (List.range k).countP n.testBit := by
  rw [bitIndices_eq_filter h, List.countP_eq_length_filter]

theorem count_eq (m : UInt32) : count m = m.toNat.bitIndices.length := by
  fun_induction count m with
  | case1 => simp
  | case2 m hm ih =>
    obtain ⟨p, hp, -⟩ := exists_lowest hm
    rw [hp, List.length_cons, ih]

theorem count_le (m : UInt32) : count m ≤ 32 := by
  have hle := (List.range 32).countP_le_length (p := m.toNat.testBit)
  rwa [← length_bitIndices (UInt32.toNat_lt m), ← count_eq, List.length_range] at hle

/-- Each set bit has its number among the positions. -/
theorem getElem?_bitIndices_iff {n k i : Nat} :
    n.bitIndices[k]? = some i ↔ n.testBit i = true ∧ n.bitIndices.idxOf i = k := by
  rw [← Nat.mem_bitIndices]
  constructor
  · intro h
    obtain ⟨hk, rfl⟩ := List.getElem?_eq_some_iff.1 h
    exact ⟨List.getElem_mem hk, n.bitIndices_nodup.idxOf_getElem k hk⟩
  · rintro ⟨hi, rfl⟩
    exact List.getElem?_idxOf hi

theorem Loop.exists_ends_start (way : Way) (w m : UInt32) : ∃ z,
    (start m).Ends way w (count m) z ∧ ∀ j, z.toNat.testBit j =
      m.toNat.bitIndices.zipIdx.any fun p =>
        ((way.route p.1 p.2).2 == j) && w.toNat.testBit (way.route p.1 p.2).1 := by
  have hroom : 0 + m.toNat.bitIndices.length ≤ 32 := by
    rw [Nat.zero_add, ← count_eq]
    exact count_le m
  obtain ⟨z, hends, hz⟩ := exists_ends way w (l := start m) (k := 0) rfl hroom
  exact ⟨z, count_eq m ▸ hends, fun j => by simp [hz, start]⟩

theorem ends_gather (w m : UInt32) :
    (Loop.start m).Ends .gathering w (count m) (gather w m) := by
  obtain ⟨z, hends, hz⟩ := Loop.exists_ends_start .gathering w m
  have hgather : z = gather w m := by
    refine UInt32.toNat_inj.1 (Nat.eq_of_testBit_eq fun j => ?_)
    rw [hz, testBit_gather, Bool.eq_iff_iff]
    simp [Way.route, List.mem_zipIdx_iff_getElem?, Option.any_eq_true, and_comm]
  exact hgather ▸ hends

theorem ends_scatter (w m : UInt32) :
    (Loop.start m).Ends .scattering w (count m) (scatter w m) := by
  obtain ⟨z, hends, hz⟩ := Loop.exists_ends_start .scattering w m
  have hscatter : z = scatter w m := by
    refine UInt32.toNat_inj.1 (Nat.eq_of_testBit_eq fun j => ?_)
    rw [hz, testBit_scatter, Bool.eq_iff_iff]
    simp only [Way.route, List.any_eq_true, Prod.exists, List.mem_zipIdx_iff_getElem?,
      getElem?_bitIndices_iff, Bool.and_eq_true, beq_iff_eq]
    constructor
    · rintro ⟨i, k, ⟨hi, rfl⟩, rfl, hw⟩
      exact ⟨hi, hw⟩
    · rintro ⟨hi, hw⟩
      exact ⟨j, _, ⟨hi, rfl⟩, rfl, hw⟩
  exact hscatter ▸ hends

theorem toNat_gather_scatter (w m : UInt32) :
    (gather (scatter w m) m).toNat = w.toNat % 2 ^ count m := by
  rw [count_eq]
  refine Nat.eq_of_testBit_eq fun k => ?_
  rw [testBit_gather, Nat.testBit_mod_two_pow]
  cases hk : m.toNat.bitIndices[k]? with
  | none => simp [Nat.not_lt.2 (List.getElem?_eq_none_iff.1 hk)]
  | some i =>
    have hlt := (List.getElem?_eq_some_iff.1 hk).1
    obtain ⟨hi, hk⟩ := getElem?_bitIndices_iff.1 hk
    rw [Option.any_some, testBit_scatter, hi, hk, decide_eq_true hlt]

theorem scatter_gather (w m : UInt32) : scatter (gather w m) m = w &&& m := by
  refine UInt32.toNat_inj.1 (Nat.eq_of_testBit_eq fun i => ?_)
  rw [testBit_scatter, testBit_gather, UInt32.toNat_and, Nat.testBit_and, Bool.and_comm]
  cases hi : m.toNat.testBit i with
  | true => rw [getElem?_bitIndices_iff.2 ⟨hi, rfl⟩, Option.any_some]
  | false => simp

theorem scatter_and_not (w m : UInt32) : scatter w m &&& ~~~m = 0 := by
  refine UInt32.toNat_inj.1 (Nat.eq_of_testBit_eq fun i => ?_)
  have hnot : (~~~m).toNat = 2 ^ 32 - (m.toNat + 1) := by
    rw [UInt32.toNat_not, Nat.add_comm, ← Nat.sub_sub]
    rfl
  rw [UInt32.toNat_and, Nat.testBit_and, testBit_scatter, hnot,
    Nat.testBit_two_pow_sub_succ (UInt32.toNat_lt m)]
  cases m.toNat.testBit i <;> simp

/-- The loops of both ways end after one round for each set bit of the mask, with what gathering and
scattering make. Gathering puts the bits at the positions of the mask side by side, scattering
brings the lowest bits of a word there, and each undoes the other as far as the mask goes. -/
theorem gather_scatter (w m : UInt32) :
    (count m = (List.range 32).countP m.toNat.testBit ∧ m.toNat.bitIndices.length = count m) ∧
    (Loop.start m).Ends .gathering w (count m) (gather w m) ∧
    (Loop.start m).Ends .scattering w (count m) (scatter w m) ∧
    (∀ k, (gather w m).toNat.testBit k = m.toNat.bitIndices[k]?.any w.toNat.testBit) ∧
    (∀ i, (scatter w m).toNat.testBit i =
      (m.toNat.testBit i && w.toNat.testBit (m.toNat.bitIndices.idxOf i))) ∧
    scatter w m &&& ~~~m = 0 ∧
    (gather (scatter w m) m).toNat = w.toNat % 2 ^ count m ∧
    scatter (gather w m) m = w &&& m := by
  have hcount : m.toNat.bitIndices.length = count m := (count_eq m).symm
  exact ⟨⟨hcount ▸ length_bitIndices (UInt32.toNat_lt m), hcount⟩, ends_gather w m,
    ends_scatter w m, testBit_gather w m, testBit_scatter w m, scatter_and_not w m,
    toNat_gather_scatter w m, scatter_gather w m⟩

end Bits

theorem bitIndices_weight (p : Symbol → Bool) (xs : List Symbol) :
    (weight p xs).bitIndices = xs.findIdxs p := by
  induction xs with
  | nil => rfl
  | cons x xs ih =>
    rw [weight, List.findIdxs_cons, List.findIdxs_start, ← ih]
    cases p x with
    | true =>
      rw [Bool.toNat_true, Nat.add_comm, Nat.bitIndices_two_mul_add_one]
      rfl
    | false =>
      rw [Bool.toNat_false, Nat.zero_add, Nat.bitIndices_two_mul]
      rfl

theorem findIdxs_of_forall {p : Symbol → Bool} {xs : List Symbol} (h : ∀ x ∈ xs, p x = true)
    (first : Nat) : xs.findIdxs p first = List.range' first xs.length := by
  induction xs generalizing first with
  | nil => rfl
  | cons x xs ih =>
    obtain ⟨hx, hxs⟩ := List.forall_mem_cons.1 h
    rw [List.findIdxs_cons, if_pos hx, ih hxs, List.length_cons, List.range'_succ]

/-- The list falls into what comes before the symbol, its first block and the rest. -/
theorem exists_block (s : Symbol) (xs : List Symbol) : ∃ front block,
    xs = front ++ (block ++ (xs.dropWhile (· ≠ s)).dropWhile (· = s)) ∧
      (∀ x ∈ front, x ≠ s) ∧ (∀ x ∈ block, x = s) ∧
      ∀ y rest, (xs.dropWhile (· ≠ s)).dropWhile (· = s) = y :: rest → y ≠ s ∧ block ≠ [] := by
  refine ⟨xs.takeWhile (· ≠ s), (xs.dropWhile (· ≠ s)).takeWhile (· = s), ?_,
    fun x hx => by simpa using List.mem_takeWhile_imp hx,
    fun x hx => by simpa using List.mem_takeWhile_imp hx, fun y rest hrest => ?_⟩
  · rw [List.takeWhile_append_dropWhile, List.takeWhile_append_dropWhile]
  · have hy := List.head?_dropWhile_not (· = s) (xs.dropWhile (· ≠ s))
    have hx := List.head?_dropWhile_not (· ≠ s) xs
    cases hstart : xs.dropWhile (· ≠ s) with
    | nil =>
      rw [hstart] at hrest
      cases hrest
    | cons x tail =>
      rw [hrest] at hy
      rw [hstart] at hx
      have hxs : x = s := by simpa using hx
      exact ⟨by simpa using hy, by simp [hxs]⟩

/-- A symbol occurs in one block if its places follow each other. -/
theorem not_mem_after_block_iff (s : Symbol) (xs : List Symbol) :
    s ∉ (xs.dropWhile (· ≠ s)).dropWhile (· = s) ↔
      ∃ first n, xs.findIdxs (· = s) = List.range' first n := by
  obtain ⟨front, block, hxs, hfront, hblock, hrest⟩ := exists_block s xs
  generalize (xs.dropWhile (· ≠ s)).dropWhile (· = s) = rest at hxs hrest ⊢
  have hnone : front.findIdxs (· = s) = [] :=
    List.findIdxs_eq_nil_iff.2 fun x hx => decide_eq_false (hfront x hx)
  have hplaces : xs.findIdxs (· = s) = List.range' front.length block.length ++
      rest.findIdxs (· = s) (front.length + block.length) := by
    rw [hxs, List.findIdxs_append, List.findIdxs_append, hnone, List.nil_append, Nat.zero_add,
      findIdxs_of_forall fun x hx => decide_eq_true (hblock x hx)]
  rw [hplaces]
  cases rest with
  | nil => simp
  | cons y ys =>
    obtain ⟨hy, hnonempty⟩ := hrest y ys rfl
    have hlength := List.length_pos_iff.2 hnonempty
    constructor
    · intro hs
      have hend : (y :: ys).findIdxs (· = s) (front.length + block.length) = [] :=
        List.findIdxs_eq_nil_iff.2 fun x hx => decide_eq_false fun hxs => hs (hxs ▸ hx)
      exact ⟨front.length, block.length, by rw [hend, List.append_nil]⟩
    · -- the place behind the block would have to be one of the symbol
      rintro ⟨first, n, hrange⟩ hs
      have hmem : ∀ i, i ∈ List.range' front.length block.length ++
          (y :: ys).findIdxs (· = s) (front.length + block.length) ↔ first ≤ i ∧ i < first + n :=
        fun i => by rw [hrange, List.mem_range'_1]
      obtain ⟨j, hj⟩ : ∃ j, j ∈ (y :: ys).findIdxs (· = s) (front.length + block.length) :=
        List.exists_mem_of_ne_nil _ fun hnil =>
          of_decide_eq_false (List.findIdxs_eq_nil_iff.1 hnil s hs) rfl
      have hle := List.ge_of_mem_findIdxs j hj
      have hlow := (hmem front.length).1 (by simp; omega)
      have hhigh := (hmem j).1 (List.mem_append_right _ hj)
      have hbehind := (hmem (front.length + block.length)).2 ⟨by omega, by omega⟩
      rw [List.mem_append, List.mem_range'_1, List.mem_findIdxs_iff_getElem_sub_pos] at hbehind
      simp [hy] at hbehind

namespace Pattern

/-- The field of a marker letter, an empty one if the letter marks nothing. -/
def entry (p : Pattern) (marker : Char) : Field :=
  ((Symbol.ofMarker? marker).map p.field).getD Field.none

/-- The positions of the bits that bear the marker letter, the lowest one first. -/
def places (p : Pattern) (marker : Char) : List Nat :=
  p.symbols.findIdxs fun s => Symbol.ofMarker? marker = some s

section Marker

variable {p : Pattern} {marker : Char} {s : Symbol}

theorem entry_of_none (h : Symbol.ofMarker? marker = none) : p.entry marker = Field.none := by
  rw [entry, h]
  rfl

theorem entry_of_some (h : Symbol.ofMarker? marker = some s) : p.entry marker = p.field s := by
  rw [entry, h]
  rfl

theorem places_of_none (h : Symbol.ofMarker? marker = none) : p.places marker = [] := by
  simp [places, h, List.findIdxs_eq_nil_iff]

theorem places_of_some (h : Symbol.ofMarker? marker = some s) :
    p.places marker = p.symbols.findIdxs (· = s) := by
  simp only [places, h, Option.some.injEq, eq_comm]

theorem bitIndices_entry (p : Pattern) (marker : Char) :
    (p.entry marker).mask.toNat.bitIndices = p.places marker := by
  cases h : Symbol.ofMarker? marker with
  | none =>
    rw [entry_of_none h, places_of_none h]
    simp [Field.none]
  | some s => rw [entry_of_some h, places_of_some h, toNat_mask_field, bitIndices_weight]

theorem bits_entry (p : Pattern) (marker : Char) :
    (p.entry marker).bits = (p.places marker).length := by
  cases h : Symbol.ofMarker? marker with
  | none =>
    rw [entry_of_none h, places_of_none h]
    rfl
  | some s =>
    rw [entry_of_some h, places_of_some h, bits_field, List.length_findIdxs]
    rfl

theorem extract_eq_gather (p : Pattern) (marker : Char) (word : UInt32) :
    (p.entry marker).extract word = Bits.gather word (p.entry marker).mask := by
  cases h : Symbol.ofMarker? marker with
  | none =>
    rw [entry_of_none h]
    simp [Field.extract, Field.none, Bits.gather]
  | some s => rw [entry_of_some h, Field.extract_eq_gather]

theorem extract_scattered (p : Pattern) (marker : Char) (word : UInt32) :
    { p.entry marker with scattered := true }.extract word = (p.entry marker).extract word := by
  cases h : Symbol.ofMarker? marker with
  | none =>
    rw [entry_of_none h]
    simp [Field.extract, Field.none, Bits.gather]
  | some s =>
    rw [← UInt32.toNat_inj, entry_of_some h, Field.toNat_extract]
    exact Field.toNat_extract_scattered p s word true (by simp)

theorem scattered_entry_iff (p : Pattern) (marker : Char) :
    (p.entry marker).scattered = true ↔
      ¬ ∃ first n, p.places marker = List.range' first n := by
  cases h : Symbol.ofMarker? marker with
  | none =>
    rw [entry_of_none h, places_of_none h]
    exact ⟨nofun, fun hblock => absurd ⟨0, 0, rfl⟩ hblock⟩
  | some s =>
    rw [entry_of_some h, places_of_some h, ← not_mem_after_block_iff, not_not]
    by_cases hs : s ∈ p.symbols
    · rw [field_of_mem hs, List.contains_iff_mem]
    · have hnot : s ∉ (p.symbols.dropWhile (· ≠ s)).dropWhile (· = s) := fun hmem =>
        hs ((List.dropWhile_sublist _).subset ((List.dropWhile_sublist _).subset hmem))
      rw [field_of_not_mem hs]
      exact ⟨nofun, fun hmem => absurd hmem hnot⟩

end Marker

/-- Extracting a field is gathering under its mask: bit `k` is the bit of the word at position
number `k` of the marker, and there are no bits behind the last one. Only a field whose positions
do not follow each other is gathered, and for all others gathering would change nothing. -/
theorem extract_entry (p : Pattern) (marker : Char) (word : UInt32) :
    let f := p.entry marker
    f.extract word = Bits.gather word f.mask ∧
      f.mask.toNat.bitIndices = p.places marker ∧ f.bits = (p.places marker).length ∧
      (∀ k, (f.extract word).toNat.testBit k =
        (p.places marker)[k]?.any word.toNat.testBit) ∧
      (f.extract word).toNat < 2 ^ f.bits ∧
      (f.scattered = true ↔ ¬ ∃ first n, p.places marker = List.range' first n) ∧
      { f with scattered := true }.extract word = f.extract word := by
  intro f
  have hindices : f.mask.toNat.bitIndices = p.places marker := p.bitIndices_entry marker
  have hextract : f.extract word = Bits.gather word f.mask := p.extract_eq_gather marker word
  have hbits : f.bits = (p.places marker).length := p.bits_entry marker
  have hbit : ∀ k, (f.extract word).toNat.testBit k =
      (p.places marker)[k]?.any word.toNat.testBit := fun k => by
    rw [hextract, Bits.testBit_gather, hindices]
  have hbound : (f.extract word).toNat < 2 ^ f.bits := Nat.lt_pow_two_of_testBit _ fun k hk => by
    rw [hbit, List.getElem?_eq_none (hbits ▸ hk)]
    rfl
  exact ⟨hextract, hindices, hbits, hbit, hbound, p.scattered_entry_iff marker,
    p.extract_scattered marker word⟩

end Pattern

end Readout
