import Mathlib.Data.List.Nodup
import Mathlib.Logic.Function.Iterate
import Readout.Proofs.Operator.Filling
import Readout.Proofs.Value.Validity
import Readout.Source.Basic

/-!
# Hits in tables

What a source makes of hits does not depend on how its outputs are arranged. Here they go into a
table with a row of elements for each address: a hit takes the first element of its row that holds
no valid value and the next number of the dither, and a hit that finds none takes neither. So the
elements that are free at first are taken in the order in which hits arrive (`element_recordAll`).
-/
namespace Readout

structure HitTable where
  /-- The elements of an address, numbered in the order in which hits take them. -/
  element : Nat → Nat → Value
  count : Nat → Value
  dither : Dither

/-- How a decoder wants its hits to be kept. -/
structure HitRules where
  /-- Elements for each address. -/
  depth : Nat
  /-- Hits that find no free element are counted too. -/
  countsAll : Bool
  plain : Bool

/-- The hits that find room, where `room a` is the number of free elements of address `a`. -/
def kept (room : Nat → Nat) : List Hit → List Hit
  | [] => []
  | h :: rest =>
    if 0 < room h.address then
      h :: kept (Function.update room h.address (room h.address - 1)) rest
    else kept room rest

/-- Addresses of hits with the values that they are spread to, one after the other. -/
def spreadAll (plain : Bool) (d : Dither) : List Hit → List (Nat × Value)
  | [] => []
  | h :: rest =>
    let (v, d) := Source.spread plain d h.value
    (h.address, v) :: spreadAll plain d rest

/-- The dither behind so many hits. -/
def ditherAfter (plain : Bool) (d : Dither) (n : Nat) : Dither :=
  if plain then d else (fun d => d.draw.2)^[n] d

/-- The values under one address. -/
def column (a : Nat) (stored : List (Nat × Value)) : List Value :=
  (stored.filter fun x => x.1 = a).map Prod.snd

def hitsOf (a : Nat) (hits : List Hit) : List Hit := hits.filter fun h => h.address = a

namespace HitTable

def free (t : HitTable) (r : HitRules) (a : Nat) : List Nat :=
  (List.range r.depth).filter fun k => !(t.element a k).isValid

def tally (t : HitTable) (a : Nat) : HitTable :=
  { t with count := Function.update t.count a (t.count a + Value.one) }

def put (t : HitTable) (a k : Nat) (v : Value) : HitTable :=
  { t with element := Function.update t.element a (Function.update (t.element a) k v) }

def record (r : HitRules) (t : HitTable) (h : Hit) : HitTable :=
  match t.free r h.address with
  | [] => if r.countsAll then t.tally h.address else t
  | k :: _ =>
    let (v, d) := Source.spread r.plain t.dither h.value
    { (t.tally h.address).put h.address k v with dither := d }

def recordAll (r : HitRules) (t : HitTable) (hits : List Hit) : HitTable := hits.foldl (record r) t

/-- The table of a new event. -/
def renew (t : HitTable) : HitTable := { t with element := fun _ _ => Value.invalid }

end HitTable

theorem spread_snd (plain : Bool) (d : Dither) (v : UInt64) :
    (Source.spread plain d v).2 = ditherAfter plain d 1 := by
  rw [Source.spread, ditherAfter]
  split <;> rfl

theorem ditherAfter_succ (plain : Bool) (d : Dither) (n : Nat) :
    ditherAfter plain (ditherAfter plain d 1) n = ditherAfter plain d (n + 1) := by
  cases plain <;> rfl

theorem isValid_spread (plain : Bool) (d : Dither) (v : UInt64) :
    (Source.spread plain d v).1.isValid = true := by
  have hvalue := Value.isValid_ofNat v.toNat
  rw [Source.spread]
  split
  · exact Value.isValid_add hvalue (by decide)
  · refine Value.isValid_add hvalue ?_
    exact Value.isValid_mul (Value.isValid_ofNat _) (by decide)

section Kept

variable {room : Nat → Nat} {hits : List Hit} {a : Nat}

theorem hitsOf_cons_self (h : Hit) (hits : List Hit) :
    hitsOf h.address (h :: hits) = h :: hitsOf h.address hits :=
  List.filter_cons_of_pos (by simp)

theorem hitsOf_cons_of_ne {h : Hit} (hne : h.address ≠ a) (hits : List Hit) :
    hitsOf a (h :: hits) = hitsOf a hits := List.filter_cons_of_neg (by simpa using hne)

/-- Of the hits of one address the first ones are kept. -/
theorem hitsOf_kept (room : Nat → Nat) (hits : List Hit) (a : Nat) :
    hitsOf a (kept room hits) = (hitsOf a hits).take (room a) := by
  induction hits generalizing room with
  | nil => exact List.take_nil.symm
  | cons h hits ih =>
    rw [kept]
    by_cases ha : h.address = a
    · subst ha
      split
      · next hroom =>
        rw [hitsOf_cons_self, hitsOf_cons_self, ih, Function.update_self]
        exact (List.take_cons hroom).symm
      · next hfull =>
        have hzero : room h.address = 0 := Nat.eq_zero_of_not_pos hfull
        rw [ih, hzero, List.take_zero, List.take_zero]
    · rw [hitsOf_cons_of_ne ha]
      split
      · rw [hitsOf_cons_of_ne ha, ih, Function.update_of_ne (Ne.symm ha)]
      · exact ih room

/-- If no two hits have the same address, none takes the room of another one. -/
theorem kept_of_nodup (hn : (hits.map Hit.address).Nodup) :
    kept room hits = hits.filter fun h => 0 < room h.address := by
  induction hits generalizing room with
  | nil => rfl
  | cons h hits ih =>
    obtain ⟨hnotin, hrest⟩ := List.nodup_cons.1 hn
    rw [kept, List.filter_cons]
    simp only [decide_eq_true_eq]
    split
    · rw [ih hrest]
      refine congrArg (h :: ·) (List.filter_congr fun k hk => ?_)
      have hne : k.address ≠ h.address := fun heq => hnotin (heq ▸ List.mem_map_of_mem hk)
      rw [Function.update_of_ne hne]
    · exact ih hrest

theorem column_cons_self (a : Nat) (v : Value) (stored : List (Nat × Value)) :
    column a ((a, v) :: stored) = v :: column a stored := by
  simp [column]

theorem column_cons_of_ne {b : Nat} (hne : b ≠ a) (v : Value) (stored : List (Nat × Value)) :
    column a ((b, v) :: stored) = column a stored := by
  simp [column, hne]

theorem length_column (plain : Bool) (d : Dither) (hits : List Hit) (a : Nat) :
    (column a (spreadAll plain d hits)).length = (hitsOf a hits).length := by
  induction hits generalizing d with
  | nil => rfl
  | cons h hits ih =>
    rw [spreadAll]
    by_cases ha : h.address = a
    · subst ha
      rw [column_cons_self, hitsOf_cons_self, List.length_cons, List.length_cons, ih]
    · rw [column_cons_of_ne ha, hitsOf_cons_of_ne ha, ih]

theorem spreadAll_cons (plain : Bool) (d : Dither) (h : Hit) (hits : List Hit) :
    spreadAll plain d (h :: hits) =
      (h.address, (Source.spread plain d h.value).1) ::
        spreadAll plain (ditherAfter plain d 1) hits := by
  rw [spreadAll, ← spread_snd plain d h.value]

theorem hitsOf_eq_nil (ha : ∀ x ∈ hits, x.address ≠ a) : hitsOf a hits = [] :=
  List.filter_eq_nil_iff.2 fun x hx => by simpa using ha x hx

theorem column_eq_nil (plain : Bool) (d : Dither) (h : hitsOf a hits = []) :
    column a (spreadAll plain d hits) = [] := by
  rw [← List.length_eq_zero_iff, length_column, h]
  rfl

/-- A hit of an address has a number among all hits. -/
theorem exists_of_hitsOf {k : Nat} {h : Hit} (hk : (hitsOf a hits)[k]? = some h) :
    h.address = a ∧ ∃ i : Nat, hits[i]? = some h ∧ (hitsOf a (hits.take i)).length = k := by
  induction hits generalizing k with
  | nil => cases hk
  | cons g hits ih =>
    by_cases ha : g.address = a
    · subst ha
      rw [hitsOf_cons_self] at hk
      cases k with
      | zero =>
        obtain rfl := Option.some.inj hk
        exact ⟨rfl, 0, rfl, rfl⟩
      | succ k =>
        obtain ⟨haddress, i, hi, hcount⟩ := ih hk
        exact ⟨haddress, i + 1, hi, by rw [List.take_succ_cons, hitsOf_cons_self, ← hcount]; rfl⟩
    · rw [hitsOf_cons_of_ne ha] at hk
      obtain ⟨haddress, i, hi, hcount⟩ := ih hk
      exact ⟨haddress, i + 1, hi, by rw [List.take_succ_cons, hitsOf_cons_of_ne ha, hcount]⟩

/-- A hit stands in the column of its address behind the hits before it, with the dither that
these have left. -/
theorem getElem?_column (plain : Bool) (d : Dither) {i : Nat} {h : Hit} (hi : hits[i]? = some h) :
    (column h.address (spreadAll plain d hits))[(hitsOf h.address (hits.take i)).length]? =
      some (Source.spread plain (ditherAfter plain d i) h.value).1 := by
  induction hits generalizing d i with
  | nil => cases hi
  | cons g hits ih =>
    rw [spreadAll_cons]
    cases i with
    | zero =>
      obtain rfl := Option.some.inj hi
      rw [column_cons_self]
      cases plain <;> rfl
    | succ i =>
      have hrest := ih (ditherAfter plain d 1) hi
      rw [ditherAfter_succ] at hrest
      rw [List.take_succ_cons]
      by_cases ha : g.address = h.address
      · rw [ha, column_cons_self, ← ha, hitsOf_cons_self, ha]
        exact hrest
      · rw [column_cons_of_ne ha, hitsOf_cons_of_ne ha]
        exact hrest

/-- The values of hits with different addresses are in columns of their own. -/
theorem column_of_nodup (plain : Bool) (d : Dither) (hn : (hits.map Hit.address).Nodup) {i : Nat}
    {x : Hit} (hi : hits[i]? = some x) :
    hitsOf x.address hits = [x] ∧ column x.address (spreadAll plain d hits) =
      [(Source.spread plain (ditherAfter plain d i) x.value).1] := by
  induction hits generalizing d i with
  | nil => cases hi
  | cons g hits ih =>
    obtain ⟨hnotin, hrest⟩ := List.nodup_cons.1 hn
    have hother : ∀ y ∈ hits, y.address ≠ g.address :=
      fun y hy heq => hnotin (heq ▸ List.mem_map_of_mem hy)
    rw [spreadAll_cons]
    cases i with
    | zero =>
      obtain rfl := Option.some.inj hi
      have hnil := hitsOf_eq_nil hother
      rw [hitsOf_cons_self, column_cons_self, hnil, column_eq_nil plain _ hnil]
      cases plain <;> exact ⟨rfl, rfl⟩
    | succ i =>
      have hne := (hother x (List.mem_of_getElem? hi)).symm
      obtain ⟨hof, hcolumn⟩ := ih (ditherAfter plain d 1) hrest hi
      rw [ditherAfter_succ] at hcolumn
      rw [hitsOf_cons_of_ne hne, column_cons_of_ne hne]
      exact ⟨hof, hcolumn⟩

end Kept

namespace HitTable

variable {r : HitRules} {t : HitTable} {h : Hit} {a k : Nat}

theorem count_tally_self (t : HitTable) (a : Nat) :
    (t.tally a).count a = t.count a + Value.one := Function.update_self a _ _

theorem count_tally_of_ne (t : HitTable) {a b : Nat} (hne : b ≠ a) :
    (t.tally a).count b = t.count b := Function.update_of_ne hne _ _

theorem element_put_self (t : HitTable) (a k : Nat) (v : Value) :
    (t.put a k v).element a k = v := by
  simp only [put, Function.update_self]

theorem element_put_of_ne (t : HitTable) {a b j k : Nat} (v : Value) (hne : b ≠ a ∨ j ≠ k) :
    (t.put a k v).element b j = t.element b j := by
  change Function.update t.element a _ b j = _
  by_cases hb : b = a
  · subst hb
    rw [Function.update_self, Function.update_of_ne (hne.resolve_left (· rfl))]
  · rw [Function.update_of_ne hb]

theorem free_nodup (t : HitTable) (r : HitRules) (a : Nat) : (t.free r a).Nodup :=
  List.nodup_range.filter _

theorem mem_free : k ∈ t.free r a ↔ k < r.depth ∧ (t.element a k).isValid = false := by
  rw [free, List.mem_filter, List.mem_range, Bool.not_eq_true']

/-- A hit of a full row is counted at most. -/
theorem record_full (hf : t.free r h.address = []) :
    t.record r h = if r.countsAll then t.tally h.address else t := by
  rw [record, hf]

theorem dither_record_full (hf : t.free r h.address = []) : (t.record r h).dither = t.dither := by
  rw [record_full hf]
  split <;> rfl

theorem record_first {ks : List Nat} (hf : t.free r h.address = k :: ks) :
    t.record r h = { (t.tally h.address).put h.address k (Source.spread r.plain t.dither h.value).1
      with dither := ditherAfter r.plain t.dither 1 } := by
  rw [record, hf, ← spread_snd r.plain t.dither h.value]

theorem dither_record_first {ks : List Nat} (hf : t.free r h.address = k :: ks) :
    (t.record r h).dither = ditherAfter r.plain t.dither 1 := by
  rw [record_first hf]

section Record

theorem element_record_full (hf : t.free r h.address = []) :
    (t.record r h).element = t.element := by
  rw [record_full hf]
  split <;> rfl

variable {ks : List Nat}

theorem element_record_self (hf : t.free r h.address = k :: ks) :
    (t.record r h).element h.address k = (Source.spread r.plain t.dither h.value).1 := by
  rw [record_first hf]
  exact element_put_self _ _ _ _

theorem element_record_of_ne (hf : t.free r h.address = k :: ks) {b j : Nat}
    (hne : b ≠ h.address ∨ j ≠ k) : (t.record r h).element b j = t.element b j := by
  rw [record_first hf]
  exact element_put_of_ne (t.tally h.address) _ hne

theorem free_record_self (hf : t.free r h.address = k :: ks) :
    (t.record r h).free r h.address = ks := by
  have hnodup := t.free_nodup r h.address
  rw [hf] at hnodup
  obtain ⟨hk, -⟩ := List.nodup_cons.1 hnodup
  have hvalid := isValid_spread r.plain t.dither h.value
  -- what is free now was free before, and is not the element that the hit has taken
  have hand : (t.record r h).free r h.address = (t.free r h.address).filter fun j => j ≠ k := by
    rw [free, free, List.filter_filter]
    refine List.filter_congr fun j _ => ?_
    by_cases hj : j = k
    · subst hj
      rw [element_record_self hf, hvalid]
      simp
    · rw [element_record_of_ne hf (.inr hj)]
      simp [hj]
  rw [hand, hf, List.filter_cons_of_neg (by simp)]
  exact List.filter_eq_self.2 fun j hj => by simpa using fun heq : j = k => hk (heq ▸ hj)

theorem free_record_of_ne {b : Nat} (hb : b ≠ h.address) :
    (t.record r h).free r b = t.free r b := by
  have hsame : (t.record r h).element b = t.element b := by
    cases hf : t.free r h.address with
    | nil => rw [element_record_full hf]
    | cons k ks => exact funext fun j => element_record_of_ne hf (.inl hb)
  rw [free, free, hsame]

end Record

/-- How many elements of an address are free. -/
def room (t : HitTable) (r : HitRules) (a : Nat) : Nat := (t.free r a).length

theorem room_record_first {ks : List Nat} (hf : t.free r h.address = k :: ks) :
    (t.record r h).room r = Function.update (t.room r) h.address (t.room r h.address - 1) := by
  funext b
  by_cases hb : b = h.address
  · subst hb
    rw [Function.update_self, room, room, free_record_self hf, hf]
    rfl
  · rw [Function.update_of_ne hb, room, room, free_record_of_ne hb]

theorem room_record_full (hf : t.free r h.address = []) : (t.record r h).room r = t.room r := by
  funext b
  rw [room, room, free, free, element_record_full hf]

theorem kept_cons_first {ks : List Nat} (hf : t.free r h.address = k :: ks) (hits : List Hit) :
    kept (t.room r) (h :: hits) = h :: kept ((t.record r h).room r) hits := by
  have hroom : 0 < t.room r h.address := by
    rw [room, hf]
    exact Nat.succ_pos _
  rw [kept, if_pos hroom, room_record_first hf]

theorem kept_cons_full (hf : t.free r h.address = []) (hits : List Hit) :
    kept (t.room r) (h :: hits) = kept ((t.record r h).room r) hits := by
  have hroom : ¬ 0 < t.room r h.address := by
    rw [room, hf]
    exact Nat.lt_irrefl 0
  rw [kept, if_neg hroom, room_record_full hf]

theorem recordAll_cons (r : HitRules) (t : HitTable) (h : Hit) (hits : List Hit) :
    t.recordAll r (h :: hits) = (t.record r h).recordAll r hits := rfl

theorem recordAll_append (r : HitRules) (t : HitTable) (xs ys : List Hit) :
    t.recordAll r (xs ++ ys) = (t.recordAll r xs).recordAll r ys := List.foldl_append

theorem element_record_of_not_free (hk : k ∉ t.free r a) :
    (t.record r h).element a k = t.element a k := by
  cases hf : t.free r h.address with
  | nil => rw [element_record_full hf]
  | cons k₀ ks =>
    refine element_record_of_ne hf ?_
    by_cases ha : a = h.address
    · subst ha
      exact .inr fun heq => hk (heq ▸ hf ▸ List.mem_cons_self)
    · exact .inl ha

/-- An element that is not free stays as it is. -/
theorem element_recordAll_of_not_free (hk : k ∉ t.free r a) (hits : List Hit) :
    (t.recordAll r hits).element a k = t.element a k := by
  induction hits generalizing t with
  | nil => rfl
  | cons h hits ih =>
    have hsame := element_record_of_not_free (h := h) hk
    rw [recordAll_cons, ih, hsame]
    rw [mem_free] at hk ⊢
    rwa [hsame]

/-- The free elements of an address take the values that are stored under it, in their order. -/
theorem element_recordAll (r : HitRules) (t : HitTable) (hits : List Hit) {i : Nat}
    (hi : (t.free r a)[i]? = some k) : (t.recordAll r hits).element a k =
      ((column a (spreadAll r.plain t.dither (kept (t.room r) hits)))[i]?).getD
        (t.element a k) := by
  induction hits generalizing t i with
  | nil => rfl
  | cons h hits ih =>
    have hnext := @ih (t.record r h)
    rw [recordAll_cons]
    cases hf : t.free r h.address with
    | nil =>
      have hfree : (t.record r h).free r a = t.free r a := by
        rw [free, free, element_record_full hf]
      rw [kept_cons_full hf, hnext (hfree ▸ hi), element_record_full hf, dither_record_full hf]
    | cons k₀ ks =>
      rw [dither_record_first hf] at hnext
      rw [kept_cons_first hf, spreadAll_cons]
      by_cases ha : a = h.address
      · subst ha
        have hk₀ : k₀ ∉ ks := (List.nodup_cons.1 (hf ▸ t.free_nodup r h.address)).1
        rw [free_record_self hf] at hnext
        rw [hf] at hi
        rw [column_cons_self]
        cases i with
        | zero =>
          obtain rfl := Option.some.inj hi
          rw [element_recordAll_of_not_free, element_record_self hf]
          · rfl
          · rwa [free_record_self hf]
        | succ i =>
          have hk : k ≠ k₀ := fun heq => hk₀ (heq ▸ List.mem_of_getElem? hi)
          rw [hnext hi, element_record_of_ne hf (.inr hk)]
          rfl
      · rw [free_record_of_ne ha] at hnext
        rw [column_cons_of_ne (Ne.symm ha), hnext hi, element_record_of_ne hf (.inl ha)]

/-- Every hit that is kept draws once, and no other one does. -/
theorem dither_recordAll (r : HitRules) (t : HitTable) (hits : List Hit) :
    (t.recordAll r hits).dither =
      ditherAfter r.plain t.dither (kept (t.room r) hits).length := by
  induction hits generalizing t with
  | nil => cases hp : r.plain <;> rfl
  | cons h hits ih =>
    rw [recordAll_cons, ih]
    cases hf : t.free r h.address with
    | nil => rw [kept_cons_full hf, dither_record_full hf]
    | cons k ks =>
      rw [kept_cons_first hf, dither_record_first hf, ditherAfter_succ, List.length_cons]

/-- The hits that are counted. -/
def counted (r : HitRules) (t : HitTable) (hits : List Hit) : List Hit :=
  if r.countsAll then hits else kept (t.room r) hits

theorem counted_cons (r : HitRules) (t : HitTable) (h : Hit) (hits : List Hit) :
    (counted r t (h :: hits) = h :: counted r (t.record r h) hits ∧
        (t.record r h).count = (t.tally h.address).count) ∨
      counted r t (h :: hits) = counted r (t.record r h) hits ∧
        (t.record r h).count = t.count := by
  cases hf : t.free r h.address with
  | nil =>
    rw [counted, counted, kept_cons_full hf, record_full hf]
    split
    · exact .inl ⟨rfl, rfl⟩
    · exact .inr ⟨rfl, rfl⟩
  | cons k ks =>
    have hcount : (t.record r h).count = (t.tally h.address).count := by
      rw [record_first hf]
      rfl
    refine .inl ⟨?_, hcount⟩
    rw [counted, counted, kept_cons_first hf]
    split <;> rfl

theorem count_recordAll (r : HitRules) (t : HitTable) (hits : List Hit) (a : Nat) :
    (t.recordAll r hits).count a =
      Filler.raised (hitsOf a (counted r t hits)).length (t.count a) := by
  induction hits generalizing t with
  | nil =>
    rw [counted]
    split <;> rfl
  | cons h hits ih =>
    rw [recordAll_cons, ih]
    rcases counted_cons r t h hits with ⟨hcounted, hcount⟩ | ⟨hcounted, hcount⟩
    · rw [hcounted, hcount]
      by_cases ha : a = h.address
      · subst ha
        rw [hitsOf_cons_self, count_tally_self, Filler.raised_add_one]
        rfl
      · rw [hitsOf_cons_of_ne (Ne.symm ha), count_tally_of_ne t ha]
    · rw [hcounted, hcount]

section Distinct

variable {hits : List Hit}

/-- With one element for each address a hit is kept if this element is vacant. -/
theorem kept_vacant (t : HitTable) (hr : r.depth = 1) (hn : (hits.map Hit.address).Nodup) :
    kept (t.room r) hits = hits.filter fun x => !(t.element x.address 0).isValid := by
  rw [kept_of_nodup hn]
  refine List.filter_congr fun x _ => ?_
  rw [room, free, hr, List.range_one, List.filter_cons]
  cases (t.element x.address 0).isValid <;> rfl

/-- Hits with different addresses do not get in each other's way. -/
theorem recordAll_distinct (t : HitTable) (hr : r.depth = 1) (hall : r.countsAll = false)
    (hn : (hits.map Hit.address).Nodup) :
    let stored := hits.filter fun x => !(t.element x.address 0).isValid
    let after := t.recordAll r hits
    (∀ (i : Nat) (x : Hit), stored[i]? = some x →
      after.element x.address 0 =
        (Source.spread r.plain (ditherAfter r.plain t.dither i) x.value).1 ∧
      after.count x.address = t.count x.address + Value.one) ∧
    (∀ a, (∀ x ∈ stored, x.address ≠ a) →
      after.element a 0 = t.element a 0 ∧ after.count a = t.count a) ∧
    after.dither = ditherAfter r.plain t.dither stored.length := by
  intro stored after
  have hkept : kept (t.room r) hits = stored := t.kept_vacant hr hn
  have hdistinct : (stored.map Hit.address).Nodup := hn.sublist (List.filter_sublist.map _)
  have hcount : ∀ a, after.count a = Filler.raised (hitsOf a stored).length (t.count a) := by
    intro a
    rw [count_recordAll, counted, hall, if_neg Bool.false_ne_true, hkept]
  refine ⟨fun i x hi => ?_, fun a hother => ?_, ?_⟩
  · obtain ⟨hof, hcolumn⟩ := column_of_nodup r.plain t.dither hdistinct hi
    obtain ⟨-, hvacant⟩ := List.mem_filter.1 (List.mem_of_getElem? hi)
    have hfree : (t.free r x.address)[0]? = some 0 := by
      rw [free, hr, List.range_one, List.filter_cons, if_pos hvacant]
      rfl
    refine ⟨?_, ?_⟩
    · rw [element_recordAll r t hits hfree, hkept, hcolumn]
      rfl
    · rw [hcount, hof]
      rfl
  · have hnil := hitsOf_eq_nil hother
    refine ⟨?_, ?_⟩
    · by_cases hfree : 0 ∈ t.free r a
      · obtain ⟨i, hi⟩ := List.mem_iff_getElem?.1 hfree
        rw [element_recordAll r t hits hi, hkept, column_eq_nil r.plain t.dither hnil]
        rfl
      · exact element_recordAll_of_not_free hfree hits
    · rw [hcount, hnil]
      rfl
  · rw [dither_recordAll, hkept]

end Distinct

section Renewed

theorem free_renew (t : HitTable) (r : HitRules) (a : Nat) :
    t.renew.free r a = List.range r.depth :=
  List.filter_eq_self.2 fun _ _ => (by decide : (!Value.invalid.isValid) = true)

theorem room_renew (t : HitTable) (r : HitRules) : t.renew.room r = fun _ => r.depth := by
  funext a
  rw [room, free_renew, List.length_range]

/-- In a new event a row holds the values of its hits one after the other, as far as they fit. -/
theorem element_renewed (t : HitTable) (r : HitRules) (hits : List Hit) (hk : k < r.depth)
    (a : Nat) :
    let stored := kept (fun _ => r.depth) hits
    let x := (t.renew.recordAll r hits).element a k
    ((hitsOf a hits).length ≤ k → x = Value.invalid) ∧
      ∀ h, (hitsOf a hits)[k]? = some h → ∃ i, stored[i]? = some h ∧
        (hitsOf a (stored.take i)).length = k ∧
        x = (Source.spread r.plain (ditherAfter r.plain t.dither i) h.value).1 := by
  intro stored x
  have hfree : (t.renew.free r a)[k]? = some k := by
    rw [free_renew, List.getElem?_range hk]
  have hx : x = ((column a (spreadAll r.plain t.dither stored))[k]?).getD Value.invalid := by
    have helement := element_recordAll r t.renew hits hfree
    rwa [room_renew] at helement
  -- the hits of a row that are stored are its first ones
  have hof : (hitsOf a stored)[k]? = (hitsOf a hits)[k]? := by
    rw [hitsOf_kept, List.getElem?_take_of_lt hk]
  rw [← List.getElem?_eq_none_iff, ← hof]
  refine ⟨fun hnone => ?_, fun h hh => ?_⟩
  · rw [List.getElem?_eq_none_iff, ← length_column r.plain t.dither] at hnone
    rw [hx, List.getElem?_eq_none hnone]
    rfl
  · obtain ⟨rfl, i, hi, hbefore⟩ := exists_of_hitsOf hh
    have hcolumn := getElem?_column r.plain t.dither hi
    rw [hbefore] at hcolumn
    refine ⟨i, hi, hbefore, ?_⟩
    rw [hx, hcolumn]
    rfl

end Renewed

end HitTable

end Readout
