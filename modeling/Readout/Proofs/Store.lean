import Readout.Arena.Store

/-!
# Contents of stores

A span is the set of its slots. Two stores agree on a set of slots when they read the same there;
a write keeps an agreement if it puts the same value into both stores, and a store agrees with what
a write has made of it on all slots that the write does not reach. Everything that is said about
who reads and who writes which slots is said by agreement, since two stores that read the same
everywhere need not be held in arrays of one length.
-/
namespace Readout

namespace Span

instance : Membership Nat Span := ⟨fun p i => p.offset ≤ i ∧ i < p.offset + p.length⟩

theorem mem_iff {p : Span} {i : Nat} : i ∈ p ↔ p.offset ≤ i ∧ i < p.offset + p.length := Iff.rfl

instance (p : Span) (i : Nat) : Decidable (i ∈ p) :=
  inferInstanceAs (Decidable (p.offset ≤ i ∧ i < p.offset + p.length))

/-- No slot belongs to both spans. -/
def Apart (p q : Span) : Prop := ∀ i, i ∈ p → i ∉ q

theorem Apart.symm {p q : Span} (h : p.Apart q) : q.Apart p := fun i hq hp => h i hp hq

theorem apart_of_le {p q : Span} (h : p.offset + p.length ≤ q.offset) : p.Apart q := by
  intro i hp hq
  rw [mem_iff] at hp hq
  omega

theorem apart_of_length_eq_zero {p q : Span} (h : q.length = 0) : p.Apart q := by
  intro i _ hq
  rw [mem_iff] at hq
  omega

theorem not_mem_default (i : Nat) : i ∉ (default : Span) := by
  intro h
  rw [mem_iff] at h
  have hz : (default : Span).length = 0 := rfl
  omega

theorem make?_eq_some {offset length : Nat} {p : Span} (h : make? offset length = some p) :
    p = ⟨offset, length⟩ := by
  rw [make?] at h
  split at h
  · exact (Option.some.inj h).symm
  · cases h

theorem element?_eq_some {p q : Span} {i : Nat} (h : p.element? i = some q) :
    i < p.length ∧ q = ⟨p.offset + i, 1⟩ := by
  rw [element?] at h
  split at h
  · next hi => exact ⟨hi, make?_eq_some h⟩
  · cases h

theorem mem_of_mem_element {p q : Span} {i j : Nat} (h : p.element? i = some q) (hj : j ∈ q) :
    j ∈ p := by
  obtain ⟨hi, rfl⟩ := element?_eq_some h
  rw [mem_iff] at hj ⊢
  simp only at hj
  omega

/-- An increment of element `i` changes slot `k` of a store with so many slots. -/
def Hits (p : Span) (i slots k : Nat) : Prop := i < p.length ∧ p.offset + i = k ∧ k < slots

instance (p : Span) (i slots k : Nat) : Decidable (p.Hits i slots k) :=
  inferInstanceAs (Decidable (i < p.length ∧ p.offset + i = k ∧ k < slots))

theorem Hits.mem {p : Span} {i slots k : Nat} (h : p.Hits i slots k) : k ∈ p := by
  obtain ⟨hi, rfl, -⟩ := h
  rw [mem_iff]
  omega

end Span

namespace Store

theorem slots_fillFrom (v : Value) (s : Store) (start n : Nat) :
    (fillFrom v s start n).slots = s.slots := by
  induction n generalizing s start with
  | zero => rfl
  | succ n ih => rw [fillFrom, ih, slots_write]

theorem slots_writeList (s : Store) (start : Nat) (vs : List Value) :
    (s.writeList start vs).slots = s.slots := by
  induction vs generalizing s start with
  | nil => rfl
  | cons v vs ih => rw [writeList, ih, slots_write]

@[simp] theorem slots_fill (s : Store) (p : Span) (v : Value) : (s.fill p v).slots = s.slots :=
  slots_fillFrom v s p.offset p.length

@[simp] theorem slots_assign (s : Store) (p : Span) (vs : List Value) :
    (s.assign p vs).slots = s.slots :=
  slots_writeList s p.offset _

@[simp] theorem slots_set (s : Store) (p : Span) (i : Nat) (v : Value) :
    (s.set p i v).slots = s.slots := by
  rw [set]
  split
  · exact slots_write s _ v
  · rfl

@[simp] theorem slots_increment (s : Store) (p : Span) (i : Nat) :
    (s.increment p i).slots = s.slots :=
  slots_set s p i _

theorem read_write_of_ne (s : Store) {i j : Nat} (v : Value) (h : i ≠ j) :
    (s.write i v).read j = s.read j := by
  by_cases hi : i < s.slots
  · rw [read_write s j v hi, if_neg h]
  · rw [write_of_slots_le s v (by omega)]

theorem length_values (s : Store) (p : Span) : (s.values p).length = p.length := by
  simp [values]

theorem values_of_length_one (s : Store) {p : Span} (h : p.length = 1) :
    s.values p = [s.get p 0] := by
  rw [values, h]
  rfl

/-- Both stores are of one size and read the same on a set of slots. -/
structure AgreeOn (P : Nat → Prop) (s t : Store) : Prop where
  slots_eq : s.slots = t.slots
  read_eq : ∀ i, P i → s.read i = t.read i

namespace AgreeOn

variable {P Q : Nat → Prop} {s t u : Store}

theorem refl (P : Nat → Prop) (s : Store) : AgreeOn P s s := ⟨rfl, fun _ _ => rfl⟩

theorem symm (h : AgreeOn P s t) : AgreeOn P t s :=
  ⟨h.slots_eq.symm, fun i hi => (h.read_eq i hi).symm⟩

theorem trans (h : AgreeOn P s t) (k : AgreeOn P t u) : AgreeOn P s u :=
  ⟨h.slots_eq.trans k.slots_eq, fun i hi => (h.read_eq i hi).trans (k.read_eq i hi)⟩

theorem mono (h : AgreeOn P s t) (hQ : ∀ i, Q i → P i) : AgreeOn Q s t :=
  ⟨h.slots_eq, fun i hi => h.read_eq i (hQ i hi)⟩

/-- A slot that does not count may be given different values. -/
theorem write (h : AgreeOn P s t) (i : Nat) {v w : Value} (hv : P i → v = w) :
    AgreeOn P (s.write i v) (t.write i w) := by
  refine ⟨by rw [slots_write, slots_write, h.slots_eq], fun j hj => ?_⟩
  by_cases hi : i < s.slots
  · rw [read_write s j v hi, read_write t j w (h.slots_eq ▸ hi)]
    by_cases hij : i = j
    · rw [if_pos hij, if_pos hij]
      exact hv (hij ▸ hj)
    · rw [if_neg hij, if_neg hij]
      exact h.read_eq j hj
  · rw [write_of_slots_le s v (by omega),
      write_of_slots_le t w (by have := h.slots_eq; omega)]
    exact h.read_eq j hj

theorem fillFrom (h : AgreeOn P s t) (v : Value) (start n : Nat) :
    AgreeOn P (fillFrom v s start n) (fillFrom v t start n) := by
  induction n generalizing s t start with
  | zero => exact h
  | succ n ih => exact ih (h.write start fun _ => rfl) (start + 1)

theorem fill (h : AgreeOn P s t) (p : Span) (v : Value) : AgreeOn P (s.fill p v) (t.fill p v) :=
  h.fillFrom v p.offset p.length

theorem writeList (h : AgreeOn P s t) (start : Nat) (vs : List Value) :
    AgreeOn P (s.writeList start vs) (t.writeList start vs) := by
  induction vs generalizing s t start with
  | nil => exact h
  | cons v vs ih => exact ih (h.write start fun _ => rfl) (start + 1)

theorem assign (h : AgreeOn P s t) (p : Span) (vs : List Value) :
    AgreeOn P (s.assign p vs) (t.assign p vs) :=
  h.writeList p.offset _

theorem set (h : AgreeOn P s t) (p : Span) (i : Nat) (v : Value) :
    AgreeOn P (s.set p i v) (t.set p i v) := by
  rw [Store.set, Store.set]
  split
  · exact h.write _ fun _ => rfl
  · exact h

/-- A slot that both stores read alike is incremented alike, and no other slot counts. -/
theorem increment (h : AgreeOn P s t) (p : Span) (i : Nat) :
    AgreeOn P (s.increment p i) (t.increment p i) := by
  rw [Store.increment, Store.increment, Store.set, Store.set]
  split
  · exact h.write _ fun hp => congrArg (· + Value.one) (h.read_eq _ hp)
  · exact h

theorem get_eq (h : AgreeOn P s t) {p : Span} {i : Nat} (hi : P (p.offset + i)) :
    s.get p i = t.get p i :=
  h.read_eq _ hi

theorem values_eq (h : AgreeOn P s t) {p : Span} (hp : ∀ i ∈ p, P i) :
    s.values p = t.values p := by
  refine List.map_congr_left fun i hi => ?_
  rw [List.mem_range] at hi
  exact h.get_eq (hp _ ⟨by omega, by omega⟩)

end AgreeOn

abbrev Same (s t : Store) : Prop := s.AgreeOn (fun _ => True) t

section Frame

variable {P : Nat → Prop} (s : Store)

theorem agree_write {i : Nat} (v : Value) (hi : ¬ P i) : AgreeOn P s (s.write i v) := by
  refine ⟨(slots_write s i v).symm, fun j hj => ?_⟩
  refine (read_write_of_ne s v fun hij => hi ?_).symm
  rwa [hij]

theorem agree_fillFrom (v : Value) {start n : Nat} (h : ∀ i, start ≤ i → i < start + n → ¬ P i) :
    AgreeOn P s (fillFrom v s start n) := by
  induction n generalizing s start with
  | zero => exact AgreeOn.refl P s
  | succ n ih =>
    refine (s.agree_write v (h start (by omega) (by omega))).trans (ih _ fun i hi hn => ?_)
    exact h i (by omega) (by omega)

theorem agree_fill {p : Span} (v : Value) (h : ∀ i ∈ p, ¬ P i) : AgreeOn P s (s.fill p v) :=
  s.agree_fillFrom v fun i hi hn => h i ⟨hi, hn⟩

theorem agree_writeList {start : Nat} {vs : List Value}
    (h : ∀ i, start ≤ i → i < start + vs.length → ¬ P i) :
    AgreeOn P s (s.writeList start vs) := by
  induction vs generalizing s start with
  | nil => exact AgreeOn.refl P s
  | cons v vs ih =>
    have hs : start < start + (v :: vs).length := by simp
    refine (s.agree_write v (h start (by omega) hs)).trans (ih _ fun i hi hn => ?_)
    exact h i (by omega) (by simp only [List.length_cons]; omega)

/-- Values past the end of a span are dropped, so nothing behind it is written. -/
theorem agree_assign {p : Span} (vs : List Value) (h : ∀ i ∈ p, ¬ P i) :
    AgreeOn P s (s.assign p vs) := by
  refine s.agree_writeList fun i hi hn => h i ⟨hi, ?_⟩
  have ht : (vs.take p.length).length ≤ p.length := List.length_take_le _ _
  omega

theorem agree_set {p : Span} {i : Nat} (v : Value) (h : ∀ i ∈ p, ¬ P i) :
    AgreeOn P s (s.set p i v) := by
  rw [Store.set]
  split
  · exact s.agree_write v (h _ ⟨by omega, by omega⟩)
  · exact AgreeOn.refl P s

theorem agree_increment {p : Span} {i : Nat} (h : ∀ i ∈ p, ¬ P i) :
    AgreeOn P s (s.increment p i) :=
  s.agree_set _ h

end Frame

theorem read_fillFrom (v : Value) (s : Store) (start n j : Nat) :
    (fillFrom v s start n).read j =
      if start ≤ j ∧ j < start + n ∧ j < s.slots then v else s.read j := by
  induction n generalizing s start with
  | zero => rw [fillFrom, if_neg (by omega)]
  | succ n ih =>
    rw [fillFrom, ih, slots_write]
    by_cases hj : start = j
    · subst hj
      by_cases hs : start < s.slots
      · rw [if_neg (by omega), read_write s _ v hs, if_pos rfl, if_pos (by omega)]
      · rw [if_neg (by omega), write_of_slots_le s v (by omega), if_neg (by omega)]
    · rw [read_write_of_ne s v hj]
      by_cases hin : start + 1 ≤ j ∧ j < start + 1 + n ∧ j < s.slots
      · rw [if_pos hin, if_pos (by omega)]
      · rw [if_neg hin, if_neg (by omega)]

theorem read_writeList (s : Store) (start : Nat) (vs : List Value) (j : Nat) :
    (s.writeList start vs).read j =
      if start ≤ j ∧ j < s.slots then (vs[j - start]?).getD (s.read j) else s.read j := by
  induction vs generalizing s start with
  | nil => simp [writeList]
  | cons v vs ih =>
    rw [writeList, ih, slots_write]
    by_cases hj : start = j
    · subst hj
      rw [if_neg (by omega)]
      by_cases hs : start < s.slots
      · simp [read_write s _ v hs, hs]
      · simp [write_of_slots_le s v (Nat.le_of_not_lt hs), hs]
    · rw [read_write_of_ne s v hj]
      by_cases hin : start + 1 ≤ j ∧ j < s.slots
      · have hsucc : j - start = j - (start + 1) + 1 := by omega
        rw [if_pos hin, if_pos (by omega), hsucc, List.getElem?_cons_succ]
      · rw [if_neg hin, if_neg (by omega)]

theorem get_fill (s : Store) {p : Span} (v : Value) {i : Nat} (hi : i < p.length)
    (hs : p.offset + p.length ≤ s.slots) : (s.fill p v).get p i = v := by
  rw [get, fill, read_fillFrom, if_pos (by omega)]

/-- An element for which there is no new value keeps its own. -/
theorem get_assign (s : Store) {p : Span} (vs : List Value) {i : Nat} (hi : i < p.length)
    (hs : p.offset + p.length ≤ s.slots) :
    (s.assign p vs).get p i = (vs[i]?).getD (s.get p i) := by
  rw [get, assign, read_writeList, if_pos (by omega), Nat.add_sub_cancel_left,
    List.getElem?_take_of_lt hi, get]

/-- Where a span is overwritten, it does not matter what was there. -/
theorem AgreeOn.fill_covers {P : Nat → Prop} {s t : Store} (h : s.AgreeOn P t) {p : Span}
    (v : Value) (hp : p.stop ≤ s.slots) :
    AgreeOn (fun i => P i ∨ i ∈ p) (s.fill p v) (t.fill p v) := by
  have hslots := h.slots_eq
  refine ⟨by rw [slots_fill, slots_fill, hslots], fun i hi => ?_⟩
  rw [Store.fill, Store.fill, read_fillFrom, read_fillFrom]
  rw [Span.stop] at hp
  rcases hi with hi | hi
  · rw [hslots, h.read_eq i hi]
  · rw [Span.mem_iff] at hi
    rw [if_pos (by omega), if_pos (by omega)]

/-- Fills several spans, one after the other. -/
def fillAll (s : Store) (fills : List (Span × Value)) : Store :=
  fills.foldl (fun st (p, v) => st.fill p v) s

section FillAll

variable {P : Nat → Prop} {s t : Store} {fills : List (Span × Value)}

theorem slots_fillAll (s : Store) (fills : List (Span × Value)) :
    (s.fillAll fills).slots = s.slots := by
  induction fills generalizing s with
  | nil => rfl
  | cons x fills ih => exact (ih _).trans (s.slots_fill x.1 x.2)

theorem AgreeOn.fillAll (h : s.AgreeOn P t) (fills : List (Span × Value)) :
    AgreeOn P (s.fillAll fills) (t.fillAll fills) := by
  induction fills generalizing s t with
  | nil => exact h
  | cons x fills ih => exact ih (h.fill x.1 x.2)

theorem agree_fillAll (s : Store) (hP : ∀ x ∈ fills, ∀ i ∈ x.1, ¬ P i) :
    s.AgreeOn P (s.fillAll fills) := by
  induction fills generalizing s with
  | nil => exact .refl P s
  | cons x fills ih =>
    obtain ⟨hx, hP⟩ := List.forall_mem_cons.1 hP
    exact (s.agree_fill x.2 hx).trans (ih _ hP)

theorem AgreeOn.fillAll_covers (h : s.AgreeOn P t) (hfit : ∀ x ∈ fills, x.1.stop ≤ s.slots) :
    AgreeOn (fun i => P i ∨ ∃ x ∈ fills, i ∈ x.1) (s.fillAll fills) (t.fillAll fills) := by
  induction fills generalizing P s t with
  | nil => exact h.mono fun i hi => hi.resolve_right (by simp)
  | cons x fills ih =>
    obtain ⟨hx, hfit⟩ := List.forall_mem_cons.1 hfit
    have hnext := ih (h.fill_covers x.2 hx) fun y hy => by
      rw [slots_fill]
      exact hfit y hy
    refine hnext.mono fun i hi => ?_
    simpa [or_assoc] using hi

end FillAll

theorem AgreeOn.assign_covers {P : Nat → Prop} {s t : Store} (h : s.AgreeOn P t) {p : Span}
    {vs : List Value} (hp : p.stop ≤ s.slots) (hv : p.length ≤ vs.length) :
    AgreeOn (fun i => P i ∨ i ∈ p) (s.assign p vs) (t.assign p vs) := by
  have hslots := h.slots_eq
  refine ⟨by rw [slots_assign, slots_assign, hslots], fun i hi => ?_⟩
  rcases hi with hi | hi
  · exact (h.assign p vs).read_eq i hi
  · rw [Span.stop] at hp
    rw [Span.mem_iff] at hi
    have hlt : i - p.offset < (vs.take p.length).length := by
      rw [List.length_take]
      omega
    rw [Store.assign, Store.assign, read_writeList, read_writeList, if_pos (by omega),
      if_pos (by omega),
      List.getElem?_eq_getElem hlt]
    rfl

theorem read_increment (s : Store) (p : Span) (i k : Nat) :
    (s.increment p i).read k =
      if p.Hits i s.slots k then s.read k + Value.one else s.read k := by
  rw [increment, set]
  by_cases hi : i < p.length
  · rw [if_pos hi]
    by_cases hs : p.offset + i < s.slots
    · rw [read_write s k _ hs]
      by_cases hk : p.offset + i = k
      · subst hk
        rw [if_pos rfl, if_pos ⟨hi, rfl, hs⟩, get]
      · rw [if_neg hk, if_neg fun h => hk h.2.1]
    · rw [write_of_slots_le s _ (by omega), if_neg]
      rintro ⟨-, rfl, hk⟩
      exact hs hk
  · rw [if_neg hi, if_neg fun h => hi h.1]

end Store

end Readout
