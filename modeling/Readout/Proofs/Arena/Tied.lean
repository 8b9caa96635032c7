import Mathlib.Data.Fintype.Card
import Mathlib.Data.List.Forall2
import Readout.ConditionBits
import Readout.Proofs.Allocation

/-!
# Contents in other places

What is built in another order lies in other slots of the store. Slots of two stores are tied when
they stand for the same: tied slots hold the same value, and no slot is tied to two slots of the
other store. Spans are tied element by element; a write of the same values through tied spans keeps
all ties. Condition bits of two events are tied in the same way.
-/
namespace Readout

theorem exists_of_mem_right {α β : Type} {S : α → β → Prop} {xs : List α} {ys : List β}
    (h : List.Forall₂ S xs ys) {y : β} (hy : y ∈ ys) : ∃ x ∈ xs, S x y := by
  obtain ⟨i, hi, rfl⟩ := List.getElem_of_mem hy
  have hx : i < xs.length := h.length_eq ▸ hi
  exact ⟨xs[i], List.getElem_mem hx, h.get hx hi⟩

theorem map_eq_of_forall₂ {α β γ : Type} {S : α → β → Prop} {f : α → γ} {g : β → γ}
    {xs : List α} {ys : List β} (h : List.Forall₂ S xs ys) (hS : ∀ x y, S x y → f x = g y) :
    xs.map f = ys.map g := by
  induction h with
  | nil => rfl
  | cons hxy _ ih => rw [List.map_cons, List.map_cons, hS _ _ hxy, ih]

/-- Places of one kind in two states. -/
abbrev Ties := Nat → Nat → Prop

/-- No place has more than one counterpart. -/
def Ties.Unique (R : Ties) : Prop := ∀ ⦃i j⦄, R i j → ∀ ⦃k l⦄, R k l → (i = k ↔ j = l)

namespace Ties

/-- The same places on both sides, up to a bound. -/
def below (n : Nat) : Ties := fun i j => i = j ∧ i < n

theorem unique_below (n : Nat) : (below n).Unique := by
  rintro i _ ⟨rfl, -⟩ k _ ⟨rfl, -⟩
  rfl

/-- The ties to places up to a bound. -/
def within (R : Ties) (n : Nat) : Ties := fun i j => R i j ∧ j < n

theorem Unique.within {R : Ties} (h : R.Unique) (n : Nat) : (R.within n).Unique :=
  fun _ _ hij _ _ hkl => h hij.1 hkl.1

/-- Fewer places than counterparts, if each place has one. -/
theorem Unique.le {R : Ties} (h : R.Unique) {m n : Nat} (hleft : ∀ i < m, ∃ j, R i j)
    (hright : ∀ i j, R i j → j < n) : m ≤ n := by
  choose f hf using fun i : Fin m => hleft i i.isLt
  have hinj : Function.Injective fun i : Fin m => (⟨f i, hright _ _ (hf i)⟩ : Fin n) := by
    intro _ _ hik
    exact Fin.ext ((h (hf _) (hf _)).2 (Fin.mk.inj hik))
  simpa using Fintype.card_le_of_injective _ hinj

end Ties

variable {R R' : Ties}

namespace Span

structure Tied (R : Ties) (p q : Span) : Prop where
  length_eq : p.length = q.length
  cells : ∀ k < p.length, R (p.offset + k) (q.offset + k)

theorem Tied.mono {p q : Span} (h : p.Tied R q) (hR : ∀ i j, R i j → R' i j) : p.Tied R' q :=
  ⟨h.length_eq, fun k hk => hR _ _ (h.cells k hk)⟩

/-- Spans without elements are tied wherever they lie. -/
theorem tied_of_length_eq_zero {p q : Span} (hp : p.length = 0) (hq : q.length = 0) :
    p.Tied R q :=
  ⟨hp.trans hq.symm, fun k hk => by omega⟩

theorem tied_below {p : Span} {n : Nat} (h : p.stop ≤ n) : p.Tied (Ties.below n) p :=
  ⟨rfl, fun _ hk => ⟨rfl, Nat.lt_of_lt_of_le (Nat.add_lt_add_left hk p.offset) h⟩⟩

theorem Tied.within {p q : Span} (h : p.Tied R q) {n : Nat} (hq : q.stop ≤ n) :
    p.Tied (R.within n) q := by
  refine ⟨h.length_eq, fun k hk => ⟨h.cells k hk, ?_⟩⟩
  have hk : k < q.length := h.length_eq ▸ hk
  exact Nat.lt_of_lt_of_le (Nat.add_lt_add_left hk q.offset) hq

/-- The counterpart of a slot lies at the same place of the other span. -/
theorem Tied.mem_iff {p q : Span} (h : p.Tied R q) (hR : R.Unique) {i j : Nat} (hij : R i j) :
    i ∈ p ↔ j ∈ q := by
  rw [Span.mem_iff, Span.mem_iff]
  constructor
  · rintro ⟨hl, hu⟩
    have hcell := h.cells (i - p.offset) (by omega)
    have hj := (hR hij hcell).1 (by omega)
    have hlen := h.length_eq
    omega
  · rintro ⟨hl, hu⟩
    have hlen := h.length_eq
    have hcell := h.cells (j - q.offset) (by omega)
    have hi := (hR hij hcell).2 (by omega)
    omega

theorem Tied.element {p q p' q' : Span} (h : p.Tied R q) {i : Nat} (hp : p.element? i = some p')
    (hq : q.element? i = some q') : p'.Tied R q' := by
  obtain ⟨hi, rfl⟩ := element?_eq_some hp
  obtain ⟨-, rfl⟩ := element?_eq_some hq
  refine ⟨rfl, fun k hk => ?_⟩
  obtain rfl : k = 0 := Nat.lt_one_iff.1 hk
  exact h.cells i hi

theorem element?_of_lt {p : Span} {i : Nat} (hi : i < p.length)
    (hp : p.offset + i + 1 < Word.size 32) : p.element? i = some ⟨p.offset + i, 1⟩ := by
  rw [element?, if_pos hi, make?, if_pos hp]

theorem element?_of_le {p : Span} {i : Nat} (hi : p.length ≤ i) : p.element? i = none := by
  rw [element?, if_neg (Nat.not_lt.2 hi)]

end Span

namespace Store

theorem read_fill (s : Store) (p : Span) (v : Value) (j : Nat) :
    (s.fill p v).read j = if j ∈ p ∧ j < s.slots then v else s.read j := by
  rw [fill, read_fillFrom]
  exact if_congr and_assoc.symm rfl rfl

theorem fill_comm (s : Store) {p q : Span} (h : p.Apart q) (v w : Value) :
    ((s.fill p v).fill q w).Same ((s.fill q w).fill p v) := by
  refine ⟨by simp, fun j _ => ?_⟩
  simp only [read_fill, slots_fill]
  by_cases hp : j ∈ p
  · simp [hp, h j hp]
  · simp [hp]

/-- The order in which spans are filled does not matter if they are apart. -/
theorem fillAll_perm {xs ys : List (Span × Value)} (hperm : xs.Perm ys)
    (hx : xs.Pairwise fun x y => x.1.Apart y.1) {s t : Store} (h : s.Same t) :
    (s.fillAll xs).Same (t.fillAll ys) := by
  induction hperm generalizing s t with
  | nil => exact h
  | cons x _ ih => exact ih (List.Pairwise.of_cons hx) (h.fill x.1 x.2)
  | swap x y xs =>
    have hyx : y.1.Apart x.1 := List.rel_of_pairwise_cons hx List.mem_cons_self
    exact ((s.fill_comm hyx y.2 x.2).trans ((h.fill x.1 x.2).fill y.1 y.2)).fillAll xs
  | trans hxz _ ih ih' =>
    exact (ih hx (.refl _ s)).trans (ih' (hx.perm hxz fun hab => hab.symm) h)

/-- Stores of one size whose tied slots hold the same. -/
structure Tied (R : Ties) (s t : Store) : Prop where
  unique : R.Unique
  slots_eq : s.slots = t.slots
  left : ∀ i j, R i j → i < s.slots
  right : ∀ i j, R i j → j < t.slots
  read_eq : ∀ i j, R i j → s.read i = t.read j
  /-- Every slot has an address. -/
  small : s.slots < Word.size 32

namespace Tied

variable {s t : Store} {p q : Span}

theorem get_eq (h : s.Tied R t) (hp : p.Tied R q) {i : Nat} (hi : i < p.length) :
    s.get p i = t.get q i :=
  h.read_eq _ _ (hp.cells i hi)

theorem values_eq (h : s.Tied R t) (hp : p.Tied R q) : s.values p = t.values q := by
  rw [values, values, ← hp.length_eq]
  exact List.map_congr_left fun i hi => h.get_eq hp (List.mem_range.1 hi)

theorem write (h : s.Tied R t) {i j : Nat} (hij : R i j) (v : Value) :
    (s.write i v).Tied R (t.write j v) := by
  refine ⟨h.unique, by rw [slots_write, slots_write, h.slots_eq], fun k l hkl => ?_,
    fun k l hkl => ?_, fun k l hkl => ?_, slots_write s i v ▸ h.small⟩
  · exact slots_write s i v ▸ h.left k l hkl
  · exact slots_write t j v ▸ h.right k l hkl
  · rw [read_write s k v (h.left i j hij), read_write t l v (h.right i j hij), h.read_eq k l hkl]
    exact if_congr (h.unique hij hkl) rfl rfl

theorem writeList (h : s.Tied R t) {a b : Nat} {vs : List Value}
    (hcells : ∀ k < vs.length, R (a + k) (b + k)) :
    (s.writeList a vs).Tied R (t.writeList b vs) := by
  induction vs generalizing s t a b with
  | nil => exact h
  | cons v vs ih =>
    refine ih (h.write (hcells 0 (Nat.zero_lt_succ _)) v) fun k hk => ?_
    have hnext := hcells (k + 1) (Nat.succ_lt_succ hk)
    rwa [← Nat.add_assoc, ← Nat.add_assoc, Nat.add_right_comm, Nat.add_right_comm b] at hnext

theorem assign (h : s.Tied R t) (hp : p.Tied R q) (vs : List Value) :
    (s.assign p vs).Tied R (t.assign q vs) := by
  rw [Store.assign, Store.assign, ← hp.length_eq]
  refine h.writeList fun k hk => hp.cells k ?_
  rw [List.length_take] at hk
  omega

theorem fillFrom (h : s.Tied R t) {a b n : Nat} (v : Value)
    (hcells : ∀ k < n, R (a + k) (b + k)) : (fillFrom v s a n).Tied R (fillFrom v t b n) := by
  induction n generalizing s t a b with
  | zero => exact h
  | succ n ih =>
    refine ih (h.write (hcells 0 (Nat.zero_lt_succ _)) v) fun k hk => ?_
    have hnext := hcells (k + 1) (Nat.succ_lt_succ hk)
    rwa [← Nat.add_assoc, ← Nat.add_assoc, Nat.add_right_comm, Nat.add_right_comm b] at hnext

theorem fill (h : s.Tied R t) (hp : p.Tied R q) (v : Value) :
    (s.fill p v).Tied R (t.fill q v) := by
  rw [Store.fill, Store.fill, ← hp.length_eq]
  exact h.fillFrom v hp.cells

theorem increment (h : s.Tied R t) (hp : p.Tied R q) (i : Nat) :
    (s.increment p i).Tied R (t.increment q i) := by
  rw [Store.increment, Store.increment, set, set, ← hp.length_eq]
  split
  · next hi =>
    rw [h.get_eq hp hi]
    exact h.write (hp.cells i hi) _
  · exact h

/-- Tied spans have the same elements, and these are tied. -/
theorem element (h : s.Tied R t) (hp : p.Tied R q) (i : Nat) :
    Option.Rel (Span.Tied R) (p.element? i) (q.element? i) := by
  by_cases hi : i < p.length
  · have hleft := h.left _ _ (hp.cells i hi)
    have hright := h.right _ _ (hp.cells i hi)
    have hsmall := h.small
    have hslots := h.slots_eq
    have hpe := Span.element?_of_lt hi (by omega)
    have hqe := Span.element?_of_lt (hp.length_eq ▸ hi : i < q.length) (by omega)
    rw [hpe, hqe]
    exact .some (hp.element hpe hqe)
  · have hle := Nat.not_lt.1 hi
    rw [Span.element?_of_le hle, Span.element?_of_le (hp.length_eq ▸ hle)]
    exact .none

/-- Fills of tied spans in the same order, whatever else the spans are. -/
theorem fillAll (h : s.Tied R t) {xs ys : List (Span × Value)}
    (hx : List.Forall₂ (fun x y => x.1.Tied R y.1 ∧ x.2 = y.2) xs ys) :
    (s.fillAll xs).Tied R (t.fillAll ys) := by
  induction hx generalizing s t with
  | nil => exact h
  | @cons x y xs ys hxy _ ih =>
    obtain ⟨p, v⟩ := x
    obtain ⟨q, w⟩ := y
    obtain ⟨hspan, rfl⟩ := hxy
    exact ih (h.fill hspan v)

/-- What lies in the same place on both sides. -/
theorem agree (h : s.Tied R t) {P : Nat → Prop} (hP : ∀ i, P i → R i i) : s.AgreeOn P t :=
  ⟨h.slots_eq, fun i hi => h.read_eq i i (hP i hi)⟩

/-- Changes within what lies in the same place on both sides keep all other ties. -/
theorem within (h : s.Tied R t) {P : Nat → Prop} (hP : ∀ i, P i → R i i) {s' t' : Store}
    (hst : s'.AgreeOn P t') (hs : s.AgreeOn (fun i => ¬ P i) s')
    (ht : t.AgreeOn (fun i => ¬ P i) t') : s'.Tied R t' := by
  refine ⟨h.unique, hst.slots_eq, fun i j hij => hs.slots_eq ▸ h.left i j hij,
    fun i j hij => ht.slots_eq ▸ h.right i j hij, fun i j hij => ?_, hs.slots_eq ▸ h.small⟩
  by_cases hi : P i
  · obtain rfl := (h.unique (hP i hi) hij).1 rfl
    exact hst.read_eq i hi
  · have hj : ¬ P j := fun hj => hi (((h.unique (hP j hj) hij).2 rfl) ▸ hj)
    rw [← hs.read_eq i hi, ← ht.read_eq j hj, h.read_eq i j hij]

theorem agree_left (h : s.Tied R t) {u : Store} (hs : s.AgreeOn (fun _ => True) u) :
    u.Tied R t :=
  ⟨h.unique, hs.slots_eq.symm.trans h.slots_eq, fun i j hij => hs.slots_eq ▸ h.left i j hij,
    h.right, fun i j hij => (hs.read_eq i trivial).symm.trans (h.read_eq i j hij),
    hs.slots_eq ▸ h.small⟩

theorem agree_right (h : s.Tied R t) {u : Store} (ht : t.AgreeOn (fun _ => True) u) :
    s.Tied R u :=
  ⟨h.unique, h.slots_eq.trans ht.slots_eq, h.left,
    fun i j hij => ht.slots_eq ▸ h.right i j hij,
    fun i j hij => (h.read_eq i j hij).trans (ht.read_eq j trivial), h.small⟩

end Tied

end Store

namespace Pipe

structure Tied (R : Ties) (p q : Pipe) : Prop where
  data : p.data.Tied R q.data
  lower : p.lower.Tied R q.lower
  upper : p.upper.Tied R q.upper

theorem Tied.mono {p q : Pipe} (h : p.Tied R q) (hR : ∀ i j, R i j → R' i j) : p.Tied R' q :=
  ⟨h.data.mono hR, h.lower.mono hR, h.upper.mono hR⟩

theorem Tied.length_eq {p q : Pipe} (h : p.Tied R q) : p.length = q.length := h.data.length_eq

theorem tied_below {p : Pipe} {n : Nat} (h : ∀ t ∈ p.spans, t.stop ≤ n) :
    p.Tied (Ties.below n) p :=
  ⟨Span.tied_below (h _ (by simp [spans])), Span.tied_below (h _ (by simp [spans])),
    Span.tied_below (h _ (by simp [spans]))⟩

theorem Tied.within {p q : Pipe} (h : p.Tied R q) {n : Nat} (hq : ∀ t ∈ q.spans, t.stop ≤ n) :
    p.Tied (R.within n) q :=
  ⟨h.data.within (hq _ (by simp [spans])), h.lower.within (hq _ (by simp [spans])),
    h.upper.within (hq _ (by simp [spans]))⟩

theorem tied_default : (default : Pipe).Tied R default :=
  ⟨Span.tied_of_length_eq_zero rfl rfl, Span.tied_of_length_eq_zero rfl rfl,
    Span.tied_of_length_eq_zero rfl rfl⟩

/-- The first pipes of tied lists are tied, also if there are none. -/
theorem tied_headD {ps qs : List Pipe} (h : List.Forall₂ (Tied R) ps qs) :
    (ps.headD default).Tied R (qs.headD default) := by
  cases h with
  | nil => exact tied_default
  | cons hp _ => exact hp

end Pipe

namespace ConditionBits

/-- Condition bits whose tied places are set alike. -/
structure Tied (B : Ties) (b c : ConditionBits) : Prop where
  unique : B.Unique
  left : ∀ i j, B i j → i < b.length
  right : ∀ i j, B i j → j < c.length
  test_eq : ∀ i j, B i j → b.test i = c.test j

variable {B : Ties} {b c : ConditionBits}

theorem Tied.set (h : b.Tied B c) {i j : Nat} (hij : B i j) (v : Bool) :
    (b.set i v).Tied B (c.set j v) := by
  refine ⟨h.unique, fun k l hkl => ?_, fun k l hkl => ?_, fun k l hkl => ?_⟩
  · exact length_set b i v ▸ h.left k l hkl
  · exact length_set c j v ▸ h.right k l hkl
  · rw [test_set b i k v (h.left i j hij), test_set c j l v (h.right i j hij), h.test_eq k l hkl]
    exact if_congr (h.unique hij hkl) rfl rfl

end ConditionBits

end Readout
