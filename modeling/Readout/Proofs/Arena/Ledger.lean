import Mathlib.Algebra.Group.Nat.Defs
import Mathlib.Data.List.Pairwise
import Readout.Proofs.Allocation

/-!
# What an arena has handed out

A ledger keeps an arena together with the blocks that it has handed out since its last reset.
Whatever is asked of the arena, the blocks stay apart and below the cursor, the spans among them
start on their boundary and lie inside the store (`Ledger.Sound`), and each answer is exact: bytes
are granted whenever they fit, at the rounded cursor, and a refusal leaves the arena as it was.
-/
namespace Readout

structure Block where
  start : Nat
  size : Nat
deriving DecidableEq

def Block.stop (b : Block) : Nat := b.start + b.size

def Block.Apart (b c : Block) : Prop := b.stop ≤ c.start ∨ c.stop ≤ b.start

theorem Block.Apart.symm {b c : Block} (h : b.Apart c) : c.Apart b := Or.symm h

def Span.bytes (p : Span) : Block := ⟨p.offset * Arena.valueSize, p.length * Arena.valueSize⟩

theorem Span.stop_bytes (p : Span) : p.bytes.stop = (p.offset + p.length) * Arena.valueSize := by
  simp [Block.stop, bytes, Nat.add_mul]

theorem Span.apart_of_bytes {p q : Span} (h : p.bytes.Apart q.bytes) : p.Apart q := by
  rw [Block.Apart, stop_bytes, stop_bytes] at h
  simp only [bytes, Arena.valueSize] at h
  rcases h with h | h
  · exact apart_of_le (by omega)
  · exact (apart_of_le (by omega)).symm

namespace Arena

section Rounding

/-- Rounding up as it is done on 64-bit words: by clearing the bits below the alignment. -/
def maskUp (n align : UInt64) : UInt64 := (n + (align - 1)) &&& ~~~(align - 1)

theorem toNat_and_not_low (x m : UInt64) {k : Nat} (hm : m.toNat = 2 ^ k - 1) :
    (x &&& ~~~m).toNat = x.toNat / 2 ^ k * 2 ^ k := by
  have hpos : 0 < 2 ^ k := Nat.two_pow_pos k
  have hlt := m.toNat_lt
  -- bit by bit: those from `k` on stay, those below it are cleared
  refine Nat.eq_of_testBit_eq fun i => ?_
  have hnot : (~~~m).toNat = 2 ^ 64 - (m.toNat + 1) := by
    rw [UInt64.toNat_not, UInt64.size]
    omega
  rw [UInt64.toNat_and, Nat.testBit_and, hnot, Nat.testBit_two_pow_sub_succ hlt, hm,
    Nat.testBit_two_pow_sub_one, Nat.testBit_mul_two_pow, Nat.testBit_div_two_pow]
  by_cases hik : k ≤ i
  · by_cases hi : i < 64
    · simp [hik, hi, Nat.not_lt.2 hik]
    · have hx : x.toNat.testBit i = false :=
        Nat.testBit_lt_two_pow (Nat.lt_of_lt_of_le x.toNat_lt
          (Nat.pow_le_pow_right (by decide) (by omega)))
      simp [hik, hx]
  · simp [hik, Nat.lt_of_not_le hik]

theorem isPowerOfTwo_iff {n : Nat} : isPowerOfTwo n = true ↔ ∃ k, n = 2 ^ k := by
  rw [isPowerOfTwo, decide_eq_true_iff]
  constructor
  · intro h
    exact ⟨n.log2, h⟩
  · rintro ⟨k, rfl⟩
    rw [Nat.log2_two_pow]
    rfl

/-- No sum wraps around for a cursor that an arena can have and an alignment of 64 bits. -/
theorem toNat_maskUp {n align : Nat} (hn : n ≤ maxCapacity) (ha : isPowerOfTwo align = true)
    (hlt : align < Word.size 64) :
    (maskUp (UInt64.ofNat n) (UInt64.ofNat align)).toNat = alignUp n align := by
  obtain ⟨k, rfl⟩ := isPowerOfTwo_iff.1 ha
  have hmax : maxCapacity = (2 ^ 32 - 1) * 8 := rfl
  have hk : k < 64 := (Nat.pow_lt_pow_iff_right (by decide : 1 < 2)).1 hlt
  have hpos : 0 < 2 ^ k := Nat.two_pow_pos k
  have hle : 2 ^ k ≤ 2 ^ 63 := Nat.pow_le_pow_right (by decide) (by omega)
  have hpow : (UInt64.ofNat (2 ^ k)).toNat = 2 ^ k := UInt64.toNat_ofNat_of_lt' hlt
  have hlow : (UInt64.ofNat (2 ^ k) - 1).toNat = 2 ^ k - 1 := by
    rw [UInt64.toNat_sub_of_le _ _ (by rw [UInt64.le_iff_toNat_le, hpow]; exact hpos), hpow]
    rfl
  have hcursor : (UInt64.ofNat n).toNat = n := UInt64.toNat_ofNat_of_lt' (by
    change n < 2 ^ 64
    omega)
  rw [maskUp, toNat_and_not_low _ _ hlow, UInt64.toNat_add, hcursor, hlow, alignUp,
    Nat.mod_eq_of_lt (by omega)]

end Rounding

/-- What can be asked of an arena. -/
inductive Request
  | bytes (size align : Nat)
  | vector (length : Nat) (v : Value)
  | object (size align : Nat) (word : UInt64)
  | teardown (action : Nat)
  | write (p : Span) (vs : List Value)
  | reset

/-- Blocks and spans of an arena since its last reset, the newest ones first. -/
structure Ledger where
  arena : Arena
  blocks : List Block
  vectors : List Span

namespace Ledger

def new (bytes : Nat) : Ledger := ⟨Arena.new bytes, [], []⟩

/-- An object hides where it was put: it ends at the new cursor. -/
def apply (l : Ledger) : Request → Ledger
  | .bytes size align =>
    match pushSize size align l.arena with
    | (.ok start, a) => { l with arena := a, blocks := ⟨start, size⟩ :: l.blocks }
    | (.error _, a) => { l with arena := a }
  | .vector length v =>
    match pushFilled length v l.arena with
    | (.ok p, a) => ⟨a, p.bytes :: l.blocks, p :: l.vectors⟩
    | (.error _, a) => { l with arena := a }
  | .object size align word =>
    match pushObjectOf size align word l.arena with
    | (.ok _, a) => { l with arena := a, blocks := ⟨a.used - size, size⟩ :: l.blocks }
    | (.error _, a) => { l with arena := a }
  | .teardown action => { l with arena := l.arena.pushTeardown action }
  | .write p vs => { l with arena := (assign p vs l.arena).2 }
  | .reset => ⟨l.arena.reset.2, [], []⟩

def after (l : Ledger) (rs : List Request) : Ledger := rs.foldl apply l

structure Sound (l : Ledger) : Prop where
  slots_eq : l.arena.store.slots * valueSize = l.arena.capacity
  capacity_le : l.arena.capacity ≤ maxCapacity
  used_le : l.arena.used ≤ l.arena.capacity
  within : ∀ b ∈ l.blocks, b.stop ≤ l.arena.used
  apart : l.blocks.Pairwise Block.Apart
  listed : (l.vectors.map Span.bytes).Sublist l.blocks
  aligned : ∀ p ∈ l.vectors, spanAlignment ∣ p.bytes.start

end Ledger

section Pushes

theorem place_cases (size align : Nat) (a : Arena) :
    (isPowerOfTwo (max align 1) = true ∧ alignUp a.used (max align 1) + size ≤ a.capacity ∧
      a.place size align = .ok (alignUp a.used (max align 1),
        { a with used := alignUp a.used (max align 1) + size })) ∨
    (¬ (isPowerOfTwo (max align 1) = true ∧ alignUp a.used (max align 1) + size ≤ a.capacity) ∧
      ∃ e, a.place size align = .error e) := by
  rw [place]
  by_cases hp : isPowerOfTwo (max align 1) = true
  · by_cases hs : alignUp a.used (max align 1) + size ≤ a.capacity
    · simp [hp, hs, pure, Except.pure]
    · simp [hp, hs, throw, throwThe, MonadExceptOf.throw]
  · simp [hp, throw, throwThe, MonadExceptOf.throw]

theorem pushSize_cases (size align : Nat) (a : Arena) :
    (isPowerOfTwo (max align 1) = true ∧ alignUp a.used (max align 1) + size ≤ a.capacity ∧
      pushSize size align a = (.ok (alignUp a.used (max align 1)),
        { a with used := alignUp a.used (max align 1) + size })) ∨
    (¬ (isPowerOfTwo (max align 1) = true ∧ alignUp a.used (max align 1) + size ≤ a.capacity) ∧
      ∃ e, pushSize size align a = (.error e, a)) := by
  rw [pushSize_apply]
  rcases place_cases size align a with ⟨hp, hs, hok⟩ | ⟨hno, e, he⟩
  · exact Or.inl ⟨hp, hs, by rw [hok]⟩
  · exact Or.inr ⟨hno, e, by rw [he]⟩

theorem pushObjectOf_apply (size align : Nat) (word : UInt64) (a : Arena) :
    pushObjectOf size align word a =
      match pushSize size align a with
      | (.ok _, b) =>
        (.ok ⟨b.entries.length, b.generation⟩, { b with entries := .object word :: b.entries })
      | (.error e, b) => (.error e, b) := by
  rw [pushObjectOf, bind_apply]
  rcases pushSize size align a with ⟨r | start, b⟩ <;> rfl

end Pushes

namespace Ledger

variable {l : Ledger} {b : Arena} {start size : Nat} {p : Span}

namespace Sound

theorem mem_blocks (h : l.Sound) (hp : p ∈ l.vectors) : p.bytes ∈ l.blocks :=
  h.listed.subset (List.mem_map_of_mem hp)

theorem inside (h : l.Sound) (hp : p ∈ l.vectors) :
    p.offset + p.length ≤ l.arena.store.slots := by
  have hstop := h.within _ (h.mem_blocks hp)
  have hused := h.used_le
  have hslots := h.slots_eq
  rw [Span.stop_bytes] at hstop
  simp only [valueSize] at hstop hslots
  omega

theorem slots_lt (h : l.Sound) : l.arena.store.slots < Word.size 32 := by
  have hslots := h.slots_eq
  have hcap := h.capacity_le
  have hmax : maxCapacity = (2 ^ 32 - 1) * 8 := rfl
  have hsize : Word.size 32 = 2 ^ 32 := rfl
  simp only [valueSize] at hslots
  omega

theorem vectors_apart (h : l.Sound) : l.vectors.Pairwise Span.Apart := by
  have hmap := h.apart.sublist h.listed
  rw [List.pairwise_map] at hmap
  exact hmap.imp Span.apart_of_bytes

theorem apart_erase (h : l.Sound) (hp : p ∈ l.vectors) {q : Span} (hq : q ∈ l.vectors.erase p) :
    q.Apart p := by
  have hperm := List.perm_cons_erase hp
  have hpair := h.vectors_apart.perm hperm fun k => k.symm
  exact ((List.pairwise_cons.1 hpair).1 q hq).symm

theorem withArena (h : l.Sound) (hc : b.capacity = l.arena.capacity)
    (hs : b.store.slots = l.arena.store.slots) (hu : b.used = l.arena.used) :
    Sound { l with arena := b } where
  slots_eq := by rw [hc, hs]; exact h.slots_eq
  capacity_le := by rw [hc]; exact h.capacity_le
  used_le := by rw [hc, hu]; exact h.used_le
  within c hc := by rw [hu]; exact h.within c hc
  apart := h.apart
  listed := h.listed
  aligned := h.aligned

theorem grant (h : l.Sound) (hc : b.capacity = l.arena.capacity)
    (hs : b.store.slots = l.arena.store.slots) (hu : b.used = start + size)
    (hle : l.arena.used ≤ start) (hfit : start + size ≤ l.arena.capacity) :
    Sound ⟨b, ⟨start, size⟩ :: l.blocks, l.vectors⟩ where
  slots_eq := by rw [hc, hs]; exact h.slots_eq
  capacity_le := by rw [hc]; exact h.capacity_le
  used_le := by rw [hc, hu]; exact hfit
  within c hm := by
    rw [hu]
    rcases List.mem_cons.1 hm with rfl | hm
    · exact Nat.le_refl _
    · have hstop := h.within c hm
      omega
  apart := List.pairwise_cons.2 ⟨fun c hm => Or.inr (Nat.le_trans (h.within c hm) hle), h.apart⟩
  listed := h.listed.cons _
  aligned := h.aligned

theorem grantSpan (h : l.Sound) (hc : b.capacity = l.arena.capacity)
    (hs : b.store.slots = l.arena.store.slots) (hu : b.used = p.bytes.stop)
    (hle : l.arena.used ≤ p.bytes.start) (hfit : p.bytes.stop ≤ l.arena.capacity)
    (ha : spanAlignment ∣ p.bytes.start) : Sound ⟨b, p.bytes :: l.blocks, p :: l.vectors⟩ :=
  { h.grant hc hs hu hle hfit with
    listed := h.listed.cons_cons _
    aligned := List.forall_mem_cons.2 ⟨ha, h.aligned⟩ }

end Sound

theorem sound_new (bytes : Nat) : (new bytes).Sound where
  slots_eq := rfl
  capacity_le := by
    have hdiv := Nat.div_mul_le_self (min bytes maxCapacity) valueSize
    exact Nat.le_trans hdiv (Nat.min_le_right _ _)
  used_le := Nat.zero_le _
  within := by simp [new]
  apart := List.Pairwise.nil
  listed := List.Sublist.slnil
  aligned := by simp [new]

theorem Sound.pushFilled_cases (h : l.Sound) (length : Nat) (v : Value) :
    (∃ p : Span, p.length = length ∧ p.bytes.start = alignUp l.arena.used spanAlignment ∧
      p.bytes.stop ≤ l.arena.capacity ∧ pushFilled length v l.arena =
        (.ok p, { l.arena with used := p.bytes.stop, store := l.arena.store.fill p v })) ∨
    (l.arena.capacity < alignUp l.arena.used spanAlignment + length * valueSize ∧
      ∃ e, pushFilled length v l.arena = (.error e, l.arena)) := by
  have hslots := h.slots_eq
  have hcap := h.capacity_le
  have hlt := h.slots_lt
  have hmax : maxCapacity < Word.size 64 := by decide
  have hdvd : valueSize ∣ alignUp l.arena.used spanAlignment :=
    Nat.dvd_trans (by decide : valueSize ∣ spanAlignment) (dvd_alignUp _ _)
  have hdiv := Nat.div_mul_cancel hdvd
  have hplace := place_cases (length * valueSize) spanAlignment l.arena
  rw [show max spanAlignment 1 = spanAlignment from rfl] at hplace
  rw [pushFilled_apply]
  rcases hplace with ⟨-, hfit, hok⟩ | ⟨hno, e, he⟩
  · -- the span is in the store, so a handle can name it and its making does not fail
    have hmake : Span.make? (alignUp l.arena.used spanAlignment / valueSize) length =
        some ⟨alignUp l.arena.used spanAlignment / valueSize, length⟩ := by
      rw [Span.make?, if_pos]
      refine Nat.lt_of_le_of_lt (Nat.le_of_mul_le_mul_right ?_ (by decide : 0 < valueSize)) hlt
      rw [Nat.add_mul, hdiv, hslots]
      exact hfit
    refine Or.inl ⟨⟨alignUp l.arena.used spanAlignment / valueSize, length⟩, rfl, hdiv, ?_, ?_⟩
    · simpa [Block.stop, Span.bytes, hdiv] using hfit
    · have hsmall : ¬ Word.size 64 ≤ length * valueSize := by omega
      rw [if_neg hsmall, hok]
      simp [hmake, Block.stop, Span.bytes, hdiv]
  · refine Or.inr ⟨?_, ?_⟩
    · have hpow : isPowerOfTwo spanAlignment = true := by decide
      exact Nat.lt_of_not_le fun hle => hno ⟨hpow, hle⟩
    · rw [he]
      split <;> exact ⟨_, rfl⟩

/-- A span that was handed out has its length and lies inside the store. -/
theorem Sound.pushSpan_eq_ok (h : l.Sound) {length : Nat} {p : Span} {a : Arena}
    (hpush : pushSpan length l.arena = (.ok p, a)) :
    p.length = length ∧ p.stop ≤ a.store.slots ∧ a.store.slots < Word.size 32 := by
  rcases h.pushFilled_cases length Value.zero with ⟨q, hlength, -, hstop, hok⟩ | ⟨-, e, he⟩
  · rw [pushSpan, hok] at hpush
    obtain ⟨hq, rfl⟩ := Prod.mk.inj hpush
    obtain rfl := Except.ok.inj hq
    rw [Span.stop_bytes, ← h.slots_eq] at hstop
    rw [Store.slots_fill]
    exact ⟨hlength, Nat.le_of_mul_le_mul_right hstop (by decide : 0 < valueSize), h.slots_lt⟩
  · rw [pushSpan, he] at hpush
    cases (Prod.mk.inj hpush).1

theorem Sound.apply (h : l.Sound) (r : Request) : (l.apply r).Sound := by
  cases r with
  | bytes size align =>
    rw [Ledger.apply]
    rcases pushSize_cases size align l.arena with ⟨-, hfit, hok⟩ | ⟨-, e, he⟩
    · rw [hok]
      exact h.grant rfl rfl rfl (le_alignUp _ (by omega)) hfit
    · rw [he]
      exact h
  | vector length v =>
    rw [Ledger.apply]
    rcases h.pushFilled_cases length v with ⟨p, -, hstart, hfit, hok⟩ | ⟨-, e, he⟩
    · rw [hok]
      refine h.grantSpan rfl (Store.slots_fill _ _ _) rfl ?_ hfit ?_ <;> rw [hstart]
      · exact le_alignUp _ (by decide)
      · exact dvd_alignUp _ _
    · rw [he]
      exact h
  | object size align word =>
    rw [Ledger.apply, pushObjectOf_apply]
    rcases pushSize_cases size align l.arena with ⟨-, hfit, hok⟩ | ⟨-, e, he⟩
    · rw [hok]
      simp only [Nat.add_sub_cancel]
      exact h.grant rfl rfl rfl (le_alignUp _ (by omega)) hfit
    · rw [he]
      exact h
  | teardown action => exact h.withArena rfl rfl rfl
  | write p vs => exact h.withArena rfl (Store.slots_assign _ _ _) rfl
  | reset =>
    exact ⟨h.slots_eq, h.capacity_le, Nat.zero_le _, by simp [Ledger.apply], .nil, .slnil,
      by simp [Ledger.apply]⟩

theorem Sound.after (h : l.Sound) (rs : List Request) : (l.after rs).Sound := by
  induction rs generalizing l with
  | nil => exact h
  | cons r rs ih => exact ih (h.apply r)

/-- How an arena answers a request for bytes. -/
structure GrantsBytes (l : Ledger) (size align : Nat) : Prop where
  answered : (∃ start b, pushSize size align l.arena = (.ok start, b)) ↔
    isPowerOfTwo (max align 1) = true ∧
      alignUp l.arena.used (max align 1) + size ≤ l.arena.capacity
  granted : ∀ start b, pushSize size align l.arena = (.ok start, b) →
    max align 1 ∣ start ∧ l.arena.used ≤ start ∧ start + size ≤ l.arena.capacity ∧
      b = { l.arena with used := start + size }
  rounded : ∀ start b, pushSize size align l.arena = (.ok start, b) → align < Word.size 64 →
    start = (maskUp (UInt64.ofNat l.arena.used) (UInt64.ofNat (max align 1))).toNat
  refused : ∀ e b, pushSize size align l.arena = (.error e, b) → b = l.arena

/-- How it answers a request for a vector of `length` elements that hold `v`. -/
structure GrantsVector (l : Ledger) (length : Nat) (v : Value) : Prop where
  answered : (∃ p b, pushFilled length v l.arena = (.ok p, b)) ↔
    alignUp l.arena.used spanAlignment + length * valueSize ≤ l.arena.capacity
  granted : ∀ p b, pushFilled length v l.arena = (.ok p, b) →
    p.length = length ∧ p.bytes.start = alignUp l.arena.used spanAlignment ∧
      b.used = p.bytes.stop ∧ b.used ≤ b.capacity ∧ b.capacity = l.arena.capacity
  filled : ∀ p b, pushFilled length v l.arena = (.ok p, b) → ∀ i < length, b.store.get p i = v
  spared : ∀ p b, pushFilled length v l.arena = (.ok p, b) → ∀ q ∈ l.vectors, ∀ i < q.length,
    b.store.get q i = l.arena.store.get q i
  refused : ∀ e b, pushFilled length v l.arena = (.error e, b) → b = l.arena

/-- How it answers a request to keep an object. -/
structure GrantsObject (l : Ledger) (size align : Nat) (word : UInt64) : Prop where
  granted : ∀ o b, pushObjectOf size align word l.arena = (.ok o, b) →
    max align 1 ∣ b.used - size ∧ l.arena.used ≤ b.used - size ∧ size ≤ b.used ∧
      b.used ≤ l.arena.capacity ∧ b.store = l.arena.store ∧ b.object? o = some word
  refused : ∀ e b, pushObjectOf size align word l.arena = (.error e, b) → b = l.arena

/-- What writing values through a vector does. -/
structure Writes (l : Ledger) (p : Span) (vs : List Value) : Prop where
  written : ∀ i < p.length,
    (assign p vs l.arena).2.store.get p i = (vs[i]?).getD (l.arena.store.get p i)
  spared : ∀ q ∈ l.vectors.erase p, ∀ i < q.length,
    (assign p vs l.arena).2.store.get q i = l.arena.store.get q i
  used_eq : (assign p vs l.arena).2.used = l.arena.used

theorem Sound.grantsBytes (h : l.Sound) (size align : Nat) : l.GrantsBytes size align := by
  rcases pushSize_cases size align l.arena with ⟨hp, hfit, hok⟩ | ⟨hno, e, he⟩
  · refine ⟨⟨fun _ => ⟨hp, hfit⟩, fun _ => ⟨_, _, hok⟩⟩, fun start b hb => ?_,
      fun start b hb ha => ?_, fun e b hb => ?_⟩ <;> cases hok.symm.trans hb
    · exact ⟨dvd_alignUp _ _, le_alignUp _ (by omega), hfit, rfl⟩
    · have hone : (1 : Nat) < Word.size 64 := by decide
      exact (toNat_maskUp (Nat.le_trans h.used_le h.capacity_le) hp (by omega)).symm
  · refine ⟨⟨fun ⟨_, _, hb⟩ => ?_, fun hp => absurd hp hno⟩, fun _ _ hb => ?_, fun _ _ hb => ?_,
      fun _ _ hb => ?_⟩ <;> cases he.symm.trans hb
    rfl

theorem Sound.grantsVector (h : l.Sound) (length : Nat) (v : Value) : l.GrantsVector length v := by
  rcases h.pushFilled_cases length v with ⟨p, hl, hstart, hfit, hok⟩ | ⟨hno, e, he⟩
  · have hgrant := h.apply (.vector length v)
    simp only [Ledger.apply, hok] at hgrant
    have hroom : alignUp l.arena.used spanAlignment + length * valueSize ≤ l.arena.capacity := by
      rw [← hstart, ← hl]
      exact hfit
    refine ⟨⟨fun _ => hroom, fun _ => ⟨_, _, hok⟩⟩, fun q b hb => ?_, fun q b hb i hi => ?_,
      fun q b hb r hr i hi => ?_, fun e b hb => ?_⟩ <;> cases hok.symm.trans hb
    · exact ⟨hl, hstart, rfl, hfit, rfl⟩
    · have hin := hgrant.inside List.mem_cons_self
      rw [Store.slots_fill] at hin
      exact Store.get_fill _ v (hl ▸ hi) hin
    · have hap := (List.pairwise_cons.1 hgrant.vectors_apart).1 r hr
      refine ((l.arena.store.agree_fill (P := (· ∈ r)) v fun k hk => hap k hk).get_eq ?_).symm
      exact ⟨by omega, by omega⟩
  · refine ⟨⟨fun ⟨_, _, hb⟩ => ?_, fun hle => by omega⟩, fun _ _ hb => ?_, fun _ _ hb => ?_,
      fun _ _ hb => ?_, fun _ _ hb => ?_⟩ <;> cases he.symm.trans hb
    rfl

theorem grantsObject (l : Ledger) (size align : Nat) (word : UInt64) :
    l.GrantsObject size align word := by
  have happly := pushObjectOf_apply size align word l.arena
  rcases pushSize_cases size align l.arena with ⟨-, hfit, hok⟩ | ⟨-, e, he⟩
  · rw [hok] at happly
    have hle := le_alignUp l.arena.used (by omega : 0 < max align 1)
    refine ⟨fun o b hb => ?_, fun e b hb => ?_⟩ <;> cases happly.symm.trans hb
    simp only [Nat.add_sub_cancel]
    exact ⟨dvd_alignUp _ _, hle, by omega, hfit, trivial, by simp [object?, position?]⟩
  · rw [he] at happly
    refine ⟨fun o b hb => ?_, fun e b hb => ?_⟩ <;> cases happly.symm.trans hb
    rfl

theorem Sound.writes (h : l.Sound) (hp : p ∈ l.vectors) (vs : List Value) : l.Writes p vs where
  written i hi := Store.get_assign _ vs hi (h.inside hp)
  spared q hq i hi := by
    have hap := h.apart_erase hp hq
    refine ((l.arena.store.agree_assign (P := (· ∈ q)) vs fun k hk => hap.symm k hk).get_eq ?_).symm
    exact ⟨by omega, by omega⟩
  used_eq := rfl

/-- Whatever has been asked of an arena, its blocks are apart and inside of it, its vectors start
on their boundary and are named by their handles, and the next answer is exact. -/
theorem exact_after (bytes : Nat) (rs : List Request) :
    let l := (new bytes).after rs
    l.arena.used ≤ l.arena.capacity ∧
      (∀ b ∈ l.blocks, b.stop ≤ l.arena.used) ∧
      l.blocks.Pairwise Block.Apart ∧
      (l.vectors.map Span.bytes).Sublist l.blocks ∧
      (∀ p ∈ l.vectors, spanAlignment ∣ p.bytes.start ∧
        p.offset + p.length ≤ l.arena.store.slots ∧
        Span.make? p.offset p.length = some p) ∧
      (∀ size align, l.GrantsBytes size align) ∧
      (∀ length v, l.GrantsVector length v) ∧
      (∀ size align word, l.GrantsObject size align word) ∧
      ∀ p ∈ l.vectors, ∀ vs, l.Writes p vs := by
  have h := (sound_new bytes).after rs
  refine ⟨h.used_le, h.within, h.apart, h.listed, fun p hp => ⟨h.aligned p hp, h.inside hp, ?_⟩,
    h.grantsBytes, h.grantsVector, grantsObject _, fun p hp => h.writes hp⟩
  exact if_pos (Nat.lt_of_le_of_lt (h.inside hp) h.slots_lt)

/-- Five bytes, two vectors around an object, and a third vector that does not fit. -/
theorem exact_after_mixed :
    let l := (new 128).after [.bytes 5 1, .vector 2 Value.one, .object 8 8 7, .vector 1 Value.two,
      .vector 9 Value.zero]
    l.blocks = [⟨64, 8⟩, ⟨48, 8⟩, ⟨32, 16⟩, ⟨0, 5⟩] ∧ l.vectors = [⟨8, 1⟩, ⟨4, 2⟩] ∧
      (assign ⟨4, 2⟩ [Value.zero, Value.zero] l.arena).2.store.get ⟨8, 1⟩ 0 = Value.two := by
  intro l
  obtain ⟨-, -, -, -, -, -, -, -, hwrites⟩ := exact_after 128 [.bytes 5 1, .vector 2 Value.one,
    .object 8 8 7, .vector 1 Value.two, .vector 9 Value.zero]
  have hvectors : l.vectors = [⟨8, 1⟩, ⟨4, 2⟩] := by decide +kernel
  have hmem : (⟨4, 2⟩ : Span) ∈ l.vectors := by simp [hvectors]
  have hother : (⟨8, 1⟩ : Span) ∈ l.vectors.erase ⟨4, 2⟩ := by rw [hvectors]; decide
  refine ⟨by decide +kernel, hvectors, ?_⟩
  rw [(hwrites _ hmem _).spared _ hother 0 (by decide)]
  decide +kernel

end Ledger

end Arena

end Readout
