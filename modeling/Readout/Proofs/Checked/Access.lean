import Mathlib.Data.List.Basic
import Readout.Proofs.Store

/-!
# Checked access

Reading and writing past the end of a span goes unnoticed in a store. The functions here look at
every access: a span has to lie in the store and an index in its span, otherwise there is no
result. A loop that writes some spans element by element comes to the same as writing them one
after the other, if in each round it reads no element that an earlier round has written.
-/
namespace Readout

namespace Store

/-- Goes on if the spans lie in the store. -/
def view? (s : Store) (ps : List Span) : Option Unit :=
  if ∀ p ∈ ps, p.stop ≤ s.slots then some () else none

def load? (s : Store) (p : Span) (i : Nat) : Option Value :=
  if i < p.length then some (s.get p i) else none

def save? (s : Store) (p : Span) (i : Nat) (v : Value) : Option Store :=
  if i < p.length then some (s.set p i v) else none

def increment? (s : Store) (p : Span) (i : Nat) : Option Store := do
  s.save? p i ((← s.load? p i) + Value.one)

def loop? (n : Nat) (body : Nat → Store → Option Store) (s : Store) : Option Store :=
  (List.range n).foldlM (fun s i => body i s) s

theorem view?_eq {s : Store} {ps : List Span} (h : ∀ p ∈ ps, p.stop ≤ s.slots) :
    s.view? ps = some () := if_pos h

theorem load?_eq {s : Store} {p : Span} {i : Nat} (h : i < p.length) :
    s.load? p i = some (s.get p i) := if_pos h

theorem save?_eq {s : Store} {p : Span} {i : Nat} (v : Value) (h : i < p.length) :
    s.save? p i v = some (s.set p i v) := if_pos h

theorem increment?_eq {s : Store} {p : Span} {i : Nat} (h : i < p.length) :
    s.increment? p i = some (s.increment p i) := by
  rw [increment?, load?_eq h]
  exact save?_eq _ h

section Writing

/-- A store is known by its size, the length of its array and what it reads. -/
theorem ext_read {s t : Store} (hs : s.slots = t.slots) (hc : s.cells.size = t.cells.size)
    (hr : ∀ i, s.read i = t.read i) : s = t := by
  obtain ⟨slots, cells⟩ := s
  obtain ⟨slots', cells'⟩ := t
  obtain rfl : slots = slots' := hs
  refine congrArg (mk slots) (Array.ext hc fun i hi hi' => ?_)
  have hread := hr i
  simp only [read_def, Array.getElem?_eq_getElem hi, Array.getElem?_eq_getElem hi',
    Option.getD_some] at hread
  exact hread

theorem size_write (s : Store) (i : Nat) (v : Value) :
    (s.write i v).cells.size = if i < s.slots then max s.cells.size (i + 1) else s.cells.size := by
  obtain ⟨slots, cells⟩ := s
  rw [write]
  dsimp only
  split
  · split
    · rw [Array.set!_eq_setIfInBounds, Array.size_setIfInBounds]
      omega
    · rw [Array.size_push, size_extend cells (by omega)]
      omega
  · rfl

theorem write_comm (s : Store) {i j : Nat} (v w : Value) (h : i ≠ j) :
    (s.write i v).write j w = (s.write j w).write i v := by
  by_cases hi : i < s.slots
  · by_cases hj : j < s.slots
    · have hi' : i < (s.write j w).slots := by rwa [slots_write]
      have hj' : j < (s.write i v).slots := by rwa [slots_write]
      refine ext_read (by simp only [slots_write]) ?_ fun k => ?_
      · simp only [size_write, slots_write, if_pos hi, if_pos hj]
        omega
      · rw [read_write _ k w hj', read_write _ k v hi', read_write _ k v hi, read_write _ k w hj]
        split
        · next hk => rw [if_neg fun hik => h (hik.trans hk.symm)]
        · rfl
    · rw [write_of_slots_le s w (by omega), write_of_slots_le _ w (by rw [slots_write]; omega)]
  · rw [write_of_slots_le s v (by omega), write_of_slots_le _ v (by rw [slots_write]; omega)]

theorem set_comm (s : Store) {p q : Span} (h : p.Apart q) (i j : Nat) (v w : Value) :
    (s.set p i v).set q j w = (s.set q j w).set p i v := by
  simp only [set]
  split <;> split
  · next hi hj =>
    refine s.write_comm v w fun hij => ?_
    exact h (p.offset + i) ⟨by omega, by omega⟩ ⟨by omega, by omega⟩
  all_goals rfl

theorem writeList_append (s : Store) (start : Nat) (vs ws : List Value) :
    s.writeList start (vs ++ ws) = (s.writeList start vs).writeList (start + vs.length) ws := by
  induction vs generalizing s start with
  | nil => rfl
  | cons v vs ih =>
    have hlen : start + (v :: vs).length = start + 1 + vs.length := by
      rw [List.length_cons]
      omega
    rw [List.cons_append, writeList, writeList, ih, hlen]

theorem assign_range_zero (s : Store) (p : Span) (g : Nat → Value) :
    s.assign p ((List.range 0).map g) = s := by
  rw [assign, List.range_zero, List.map_nil, List.take_nil, writeList]

theorem assign_range_succ (s : Store) {p : Span} {n : Nat} (g : Nat → Value) (h : n < p.length) :
    s.assign p ((List.range (n + 1)).map g) =
      (s.assign p ((List.range n).map g)).set p n (g n) := by
  have htake : ∀ m, m ≤ p.length → ((List.range m).map g).take p.length = (List.range m).map g :=
    fun m hm => List.take_of_length_le (by simpa using hm)
  rw [assign, assign, htake (n + 1) h, htake n (Nat.le_of_lt h), List.range_succ, List.map_append,
    writeList_append, set, if_pos h]
  simp [writeList]

theorem set_assign_comm (s : Store) {p q : Span} (h : p.Apart q) (i : Nat) (v : Value)
    (g : Nat → Value) {n : Nat} (hn : n ≤ q.length) :
    (s.assign q ((List.range n).map g)).set p i v =
      (s.set p i v).assign q ((List.range n).map g) := by
  induction n with
  | zero => rw [assign_range_zero, assign_range_zero]
  | succ n ih =>
    rw [assign_range_succ _ g hn, assign_range_succ _ g hn, ← ih (Nat.le_of_succ_le hn),
      set_comm _ h]

end Writing

section Elements

variable {s : Store} {p : Span} {n : Nat}

theorem mapM_load?_eq (h : n ≤ p.length) :
    (List.range n).mapM (s.load? p) = some ((List.range n).map (s.get p)) := by
  have hlist : ∀ is : List Nat, (∀ i ∈ is, i < p.length) →
      is.mapM (s.load? p) = some (is.map (s.get p)) := by
    intro is
    induction is with
    | nil => exact fun _ => rfl
    | cons i is ih =>
      intro his
      obtain ⟨hi, his⟩ := List.forall_mem_cons.1 his
      rw [List.mapM_cons, load?_eq hi, ih his]
      rfl
  exact hlist _ fun i hi => Nat.lt_of_lt_of_le (List.mem_range.1 hi) h

theorem values_eq_range (s : Store) (h : p.length = n) :
    s.values p = (List.range n).map (s.get p) := by
  rw [values, h]

theorem values_one (s : Store) (h : p.length = 1) : s.values p = [s.get p 0] :=
  s.values_eq_range h

theorem set_eq_assign (s : Store) (h : 0 < p.length) (v : Value) :
    s.set p 0 v = s.assign p [v] := by
  have htake : [v].take p.length = [v] := List.take_of_length_le h
  rw [set, if_pos h, assign, htake]
  rfl

theorem get_assign_of_apart (s : Store) {q : Span} (vs : List Value) (h : q.Apart p) {k : Nat}
    (hk : k < q.length) : (s.assign p vs).get q k = s.get q k := by
  refine ((s.agree_assign (P := fun i => i ∉ p) vs fun i hi hn => hn hi).get_eq ?_).symm
  exact h _ ⟨by omega, by omega⟩

end Elements

section Rounds

/-- A span that a loop writes, with the value of each element. -/
structure Target where
  span : Span
  value : Nat → Value

variable {outs : List Target} {n : Nat}

def setAll (s : Store) (outs : List Target) (i : Nat) : Store :=
  outs.foldl (fun s o => s.set o.span i (o.value i)) s

def assignAll (s : Store) (outs : List Target) (n : Nat) : Store :=
  outs.foldl (fun s o => s.assign o.span ((List.range n).map o.value)) s

/-- What the rounds before round `n` leave alone. -/
def Unwritten (outs : List Target) (n j : Nat) : Prop :=
  ∀ o ∈ outs, ¬ (o.span.offset ≤ j ∧ j < o.span.offset + n)

theorem set_assignAll_comm (s : Store) {p : Span} (h : ∀ o ∈ outs, p.Apart o.span)
    (hn : ∀ o ∈ outs, n ≤ o.span.length) (i : Nat) (v : Value) :
    (s.assignAll outs n).set p i v = (s.set p i v).assignAll outs n := by
  induction outs generalizing s with
  | nil => rfl
  | cons o outs ih =>
    obtain ⟨ho, houts⟩ := List.forall_mem_cons.1 h
    obtain ⟨hno, hnouts⟩ := List.forall_mem_cons.1 hn
    rw [assignAll, List.foldl_cons, assignAll, List.foldl_cons, ← set_assign_comm s ho i v _ hno]
    exact ih _ houts hnouts

theorem assignAll_succ (s : Store) (happ : (outs.map Target.span).Pairwise Span.Apart)
    (hn : ∀ o ∈ outs, n < o.span.length) :
    (s.assignAll outs n).setAll outs n = s.assignAll outs (n + 1) := by
  induction outs generalizing s with
  | nil => rfl
  | cons o outs ih =>
    obtain ⟨ho, houts⟩ := List.pairwise_cons.1 happ
    obtain ⟨hno, hnouts⟩ := List.forall_mem_cons.1 hn
    have hapart : ∀ q ∈ outs, o.span.Apart q.span := fun q hq => ho _ (List.mem_map_of_mem hq)
    have hset := set_assignAll_comm (s.assign o.span ((List.range n).map o.value)) hapart
      (fun q hq => Nat.le_of_lt (hnouts q hq)) n (o.value n)
    rw [← assign_range_succ s o.value hno] at hset
    change (((s.assign o.span _).assignAll outs n).set o.span n (o.value n)).setAll outs n = _
    rw [hset]
    exact ih _ houts hnouts

theorem agree_assignAll (s : Store) (outs : List Target) (n : Nat) :
    s.AgreeOn (Unwritten outs n) (s.assignAll outs n) := by
  have hsub : ∀ (ts : List Target) (t : Store), ts ⊆ outs →
      t.AgreeOn (Unwritten outs n) (t.assignAll ts n) := by
    intro ts
    induction ts with
    | nil => exact fun t _ => .refl _ t
    | cons o ts ih =>
      intro t hts
      refine AgreeOn.trans ?_ (ih _ (List.subset_of_cons_subset hts))
      refine t.agree_writeList fun j hj hlt hu => hu o (hts List.mem_cons_self) ⟨hj, ?_⟩
      have hlen : (((List.range n).map o.value).take o.span.length).length ≤ n := by
        simp only [List.length_take, List.length_map, List.length_range]
        omega
      omega
  exact hsub outs s (List.Subset.refl _)

/-- In round `n` an element is still what it was if it is of a span that is not written, or if its
turn has not come. -/
theorem get_of_unwritten {s t : Store} (h : s.AgreeOn (Unwritten outs n) t) {q : Span} {k : Nat}
    (hk : k < q.length) (hn : ∀ o ∈ outs, n ≤ o.span.length)
    (hq : ∀ o ∈ outs, q.Apart o.span ∨ q = o.span ∧ n ≤ k) : t.get q k = s.get q k := by
  refine (h.get_eq fun o ho hj => ?_).symm
  have hno := hn o ho
  rcases hq o ho with happ | ⟨rfl, hle⟩
  · exact happ (q.offset + k) ⟨by omega, by omega⟩ ⟨hj.1, by omega⟩
  · omega

/-- A loop that does not look back. -/
theorem loop?_eq {s : Store} {body : Nat → Store → Option Store}
    (happ : (outs.map Target.span).Pairwise Span.Apart) (hn : ∀ o ∈ outs, n ≤ o.span.length)
    (hbody : ∀ i < n, ∀ t, s.AgreeOn (Unwritten outs i) t → body i t = some (t.setAll outs i)) :
    s.loop? n body = some (s.assignAll outs n) := by
  induction n with
  | zero =>
    have hnone : s.assignAll outs 0 = s :=
      List.foldl_fixed' (fun o => s.assign_range_zero o.span o.value) outs
    rw [loop?, List.range_zero, List.foldlM_nil, hnone]
    rfl
  | succ n ih =>
    have hprev := ih (fun o ho => Nat.le_of_succ_le (hn o ho)) fun i hi => hbody i (by omega)
    have hround := hbody n (Nat.lt_succ_self n) _ (s.agree_assignAll outs n)
    rw [s.assignAll_succ happ hn] at hround
    rw [loop?] at hprev ⊢
    rw [List.range_succ, List.foldlM_append, hprev]
    change (body n (s.assignAll outs n) >>= fun t => some t) = _
    rw [hround]
    rfl

/-- A loop that computes spans from others that are apart from them, and from themselves. -/
theorem loop?_rounds {s : Store} (outs : List Target) (qs : List Span)
    {body : Nat → Store → Option Store}
    (happ : (outs.map Target.span).Pairwise Span.Apart) (hn : ∀ o ∈ outs, o.span.length = n)
    (hqs : ∀ q ∈ qs, q.length = n ∧ ∀ o ∈ outs, q.Apart o.span ∨ q = o.span)
    (hbody : ∀ k < n, ∀ t : Store, (∀ q ∈ qs, t.load? q k = some (s.get q k)) →
      body k t = some (t.setAll outs k)) : s.loop? n body = some (s.assignAll outs n) := by
  refine loop?_eq happ (fun o ho => Nat.le_of_eq (hn o ho).symm) fun k hk t ht => ?_
  refine hbody k hk t fun q hq => ?_
  obtain ⟨hlen, hqo⟩ := hqs q hq
  rw [load?_eq (hlen ▸ hk), get_of_unwritten ht (hlen ▸ hk)]
  · exact fun o ho => (hn o ho).symm ▸ Nat.le_of_lt hk
  · exact fun o ho => (hqo o ho).imp_right fun heq => ⟨heq, Nat.le_refl k⟩

theorem loop?_columns {s : Store} {o : Span} (qs : List Span) (g : Nat → Value)
    {body : Nat → Store → Option Store} (hn : o.length = n)
    (hqs : ∀ q ∈ qs, q.length = n ∧ (q.Apart o ∨ q = o))
    (hbody : ∀ k < n, ∀ t : Store, (∀ q ∈ qs, t.load? q k = some (s.get q k)) →
      body k t = t.save? o k (g k)) :
    s.loop? n body = some (s.assign o ((List.range n).map g)) := by
  refine loop?_rounds [⟨o, g⟩] qs (List.pairwise_singleton _ _)
    (List.forall_mem_singleton.2 hn) (fun q hq => ?_) fun k hk t ht => ?_
  · exact ⟨(hqs q hq).1, List.forall_mem_singleton.2 (hqs q hq).2⟩
  · rw [hbody k hk t ht, save?_eq _ (hn ▸ hk)]
    rfl

end Rounds

end Store

end Readout
