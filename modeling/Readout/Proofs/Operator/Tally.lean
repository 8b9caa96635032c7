import Readout.Proofs.Checked.Bins
import Readout.Proofs.Operator.Phase
import Readout.Proofs.Value.Doubles

/-!
# Counts of histograms

A histogram that is filled counts the coordinate once: in the bin that it falls into and among the
entries, or on one side of the axis. Counters are doubles that are raised by one; as long as they
stay below two to the 53 they are the numbers that they stand for.
-/
namespace Readout

namespace Value

/-- Where counting up from zero leads to. -/
def counted (n : Nat) : Value := Filler.raised n zero

theorem counted_succ (n : Nat) : counted (n + 1) = counted n + one := Filler.raised_succ n zero

theorem counted_eq {n : Nat} (h : n < 2 ^ 53) : counted n = ofNat n := by
  induction n with
  | zero => decide +kernel
  | succ n ih => rw [counted_succ, ih (by omega), ofNat_succ h]

/-- A valid value other than a NaN. -/
def isNumber (v : Value) : Bool := v.isValid && !v.isNaN

end Value

/-- Bins and counters that have counted so many coordinates. -/
def Tallied (st : Store) (data : Span) (entries underflow overflow : Value) (taken : Nat) : Prop :=
  ∃ (ns : List Nat) (u o : Nat), st.values data = ns.map Value.counted ∧
    entries = Value.counted ns.sum ∧ underflow = Value.counted u ∧ overflow = Value.counted o ∧
      ns.sum + u + o = taken

theorem sum_modify_succ {ns : List Nat} {i : Nat} (h : i < ns.length) :
    (ns.modify i (· + 1)).sum = ns.sum + 1 := by
  induction ns generalizing i with
  | nil => cases h
  | cons n ns ih =>
    cases i with
    | zero =>
      simp only [List.modify_zero_cons, List.sum_cons]
      omega
    | succ i =>
      simp only [List.modify_succ_cons, List.sum_cons, ih (Nat.lt_of_succ_lt_succ h)]
      omega

theorem Store.values_increment (st : Store) {data cell : Span} {bin : Nat}
    (hc : data.element? bin = some cell) (hd : data.stop ≤ st.slots) :
    (st.increment cell 0).values data = (st.values data).modify bin (· + Value.one) := by
  obtain ⟨hb, rfl⟩ := Span.element?_eq_some hc
  refine List.ext_getElem (by simp [length_values]) fun i hi _ => ?_
  rw [length_values] at hi
  have hin : data.offset + bin < st.slots := by
    rw [Span.stop] at hd
    omega
  rw [List.getElem_modify]
  simp only [values, List.getElem_map, List.getElem_range, get, read_increment]
  by_cases hib : bin = i
  · subst hib
    rw [if_pos rfl, if_pos ⟨Nat.zero_lt_one, rfl, hin⟩]
  · rw [if_neg hib, if_neg fun hh => hib (Nat.add_left_cancel hh.2.1)]

/-- A span holds the value that it and all others are filled with. -/
theorem Store.values_fillAll {fills : List (Span × Value)} {v : Value}
    (hv : ∀ x ∈ fills, x.2 = v) {st : Store} {p : Span} (hp : p ∈ fills.map Prod.fst)
    (hfit : p.stop ≤ st.slots) : (st.fillAll fills).values p = List.replicate p.length v := by
  have hread : ∀ (fills : List (Span × Value)) (st : Store) (k : Nat), (∀ x ∈ fills, x.2 = v) →
      p.stop ≤ st.slots → k ∈ p → (st.read k = v ∨ p ∈ fills.map Prod.fst) →
        (st.fillAll fills).read k = v := by
    intro fills
    induction fills with
    | nil => exact fun st k _ _ _ h => h.resolve_right (by simp)
    | cons x fills ih =>
      intro st k hv hfit hk h
      obtain ⟨hx, hv⟩ := List.forall_mem_cons.1 hv
      refine ih (st.fill x.1 x.2) k hv (by rwa [slots_fill]) hk ?_
      rw [fill, read_fillFrom, hx]
      split
      · exact Or.inl rfl
      · next hout =>
        rcases h with h | h
        · exact Or.inl h
        · refine Or.inr ((List.mem_cons.1 h).resolve_left ?_)
          rintro rfl
          exact hout ⟨hk.1, hk.2, Nat.lt_of_lt_of_le hk.2 hfit⟩
  refine List.eq_replicate_iff.2 ⟨st.fillAll fills |>.length_values p, fun w hw => ?_⟩
  obtain ⟨i, hi, rfl⟩ := List.mem_map.1 hw
  exact hread fills st _ hv hfit ⟨Nat.le_add_right _ _,
    Nat.add_lt_add_left (List.mem_range.1 hi) _⟩ (Or.inr hp)

namespace Tallied

variable {st t : Store} {data : Span} {entries underflow overflow : Value} {taken : Nat}

theorem blank (h : st.values data = List.replicate data.length Value.zero) :
    Tallied st data .zero .zero .zero 0 := by
  refine ⟨List.replicate data.length 0, 0, 0, ?_, ?_, rfl, rfl, by simp⟩
  · rw [h, List.map_replicate]
    rfl
  · rw [List.sum_replicate, smul_zero]
    rfl

theorem agree (h : Tallied st data entries underflow overflow taken)
    (hst : st.AgreeOn (· ∈ data) t) : Tallied t data entries underflow overflow taken := by
  obtain ⟨ns, u, o, hbins, hrest⟩ := h
  exact ⟨ns, u, o, (hst.values_eq fun _ => id).symm.trans hbins, hrest⟩

theorem add_underflow (h : Tallied st data entries underflow overflow taken) :
    Tallied st data entries (underflow + Value.one) overflow (taken + 1) := by
  obtain ⟨ns, u, o, hbins, hentries, rfl, hover, hsum⟩ := h
  exact ⟨ns, u + 1, o, hbins, hentries, (Value.counted_succ u).symm, hover, by omega⟩

theorem add_overflow (h : Tallied st data entries underflow overflow taken) :
    Tallied st data entries underflow (overflow + Value.one) (taken + 1) := by
  obtain ⟨ns, u, o, hbins, hentries, hunder, rfl, hsum⟩ := h
  exact ⟨ns, u, o + 1, hbins, hentries, hunder, (Value.counted_succ o).symm, by omega⟩

theorem add_entry (h : Tallied st data entries underflow overflow taken) {f : Filler}
    (hq : f.strategy = .direct) (hd : data.stop ≤ st.slots) (hroom : st.slots < Word.size 32)
    {bin : Nat} (hb : bin < data.length) :
    Tallied (f.increment st data bin).2 data (entries + Value.one) underflow overflow
      (taken + 1) := by
  obtain ⟨ns, u, o, hbins, rfl, hunder, hover, hsum⟩ := h
  have hlength : ns.length = data.length := by
    rw [← List.length_map Value.counted, ← hbins, Store.length_values]
  have hcell : data.element? bin = some ⟨data.offset + bin, 1⟩ := by
    have hstop : data.offset + bin + 1 < Word.size 32 := by
      rw [Span.stop] at hd
      omega
    rw [Span.element?, if_pos hb, Span.make?, if_pos hstop]
  have hstore : (f.increment st data bin).2 = st.increment ⟨data.offset + bin, 1⟩ 0 := by
    rw [Filler.increment, hcell, hq]
    rfl
  refine ⟨ns.modify bin (· + 1), u, o, ?_, ?_, hunder, hover, ?_⟩
  · rw [hstore, st.values_increment hcell hd, hbins]
    refine List.ext_getElem (by simp) fun i hi _ => ?_
    simp only [List.getElem_modify, List.getElem_map]
    split
    · rw [Value.counted_succ]
    · rfl
  · rw [sum_modify_succ (hlength ▸ hb), Value.counted_succ]
  · rw [sum_modify_succ (hlength ▸ hb)]
    omega

end Tallied

section Filling

variable {f : Filler} {st : Store} {taken : Nat}

namespace Histogram

/-- The bins and counters of a histogram have counted so many coordinates. -/
def Tallied (h : Histogram) (st : Store) (taken : Nat) : Prop :=
  Readout.Tallied st h.data h.entries h.underflow h.overflow taken

/-- A histogram over bins that a store has room for. -/
structure Fits (h : Histogram) (st : Store) : Prop where
  bins : 0 < h.bins
  stop : h.data.stop ≤ st.slots
  room : st.slots < Word.size 32

/-- A histogram takes the value of its element if it is valid. -/
def take (h : Histogram) (v : Value) (f : Filler) (st : Store) : Histogram × Filler × Store :=
  if v.isValid then h.fill v f st else (h, f, st)

theorem fillEach_cons (h : Histogram) (hs : List Histogram) (v : Value) (vs : List Value)
    (f : Filler) (st : Store) : fillEach (h :: hs) (v :: vs) f st =
      ((h.take v f st).1 :: (fillEach hs vs (h.take v f st).2.1 (h.take v f st).2.2).1,
        (fillEach hs vs (h.take v f st).2.1 (h.take v f st).2.2).2) := rfl

theorem take_direct (hq : f.strategy = .direct) (h : Histogram) (v : Value) (st : Store) :
    (h.take v f st).2.1 = f ∧ (h.take v f st).1.data = h.data ∧
      st.AgreeOn (· ∉ h.data) (h.take v f st).2.2 := by
  rw [take, fill]
  split
  · split
    · exact ⟨rfl, rfl, .refl _ _⟩
    · rcases h.target v with - | - | i
      · exact ⟨rfl, rfl, .refl _ _⟩
      · exact ⟨rfl, rfl, .refl _ _⟩
      · exact ⟨Filler.increment_direct hq st h.data i, rfl,
          f.increment_frame st i fun _ hi hn => hn hi⟩
  · exact ⟨rfl, rfl, .refl _ _⟩

theorem fillEach_direct (hq : f.strategy = .direct) (hs : List Histogram) (vs : List Value)
    (st : Store) : (fillEach hs vs f st).1.map data = hs.map data ∧
      st.AgreeOn (fun i => ∀ h ∈ hs, i ∉ h.data) (fillEach hs vs f st).2.2 := by
  induction hs generalizing vs st with
  | nil => exact ⟨rfl, .refl _ _⟩
  | cons h hs ih =>
    cases vs with
    | nil => exact ⟨rfl, .refl _ _⟩
    | cons v vs =>
      obtain ⟨hf, hdata, hst⟩ := take_direct hq h v st
      obtain ⟨hmap, hrest⟩ := ih vs (h.take v f st).2.2
      rw [fillEach_cons, hf, List.map_cons, List.map_cons, hdata, hmap]
      refine ⟨rfl, (hst.mono fun i hi => ?_).trans (hrest.mono fun i hi => ?_)⟩
      · exact hi h List.mem_cons_self
      · exact fun k hk => hi k (List.mem_cons_of_mem h hk)

theorem Tallied.take {h : Histogram} (ht : h.Tallied st taken) (hq : f.strategy = .direct)
    (hf : h.Fits st) (v : Value) :
    (h.take v f st).1.Tallied (h.take v f st).2.2 (taken + if v.isNumber then 1 else 0) := by
  rw [Histogram.take, fill, Value.isNumber]
  cases hv : v.isValid with
  | false => exact ht
  | true =>
    cases hn : v.isNaN with
    | true => exact ht
    | false =>
      simp only [if_true, Bool.false_eq_true, if_false, Bool.not_false, Bool.and_self]
      rcases hx : h.target v with - | - | i
      · exact ht.add_underflow
      · exact ht.add_overflow
      · exact ht.add_entry hq hf.stop hf.room (target_lt hf.bins hx)

/-- Each histogram counts the value of its element, unless it is invalid or a NaN. -/
theorem tallied_fillEach (hq : f.strategy = .direct) {hs : List Histogram}
    (hf : ∀ h ∈ hs, h.Fits st) (happ : (hs.map data).Pairwise Span.Apart) (vs : List Value)
    {taken : Nat → Nat} (ht : ∀ (i : Nat) (h : Histogram), hs[i]? = some h → h.Tallied st (taken i))
    {i : Nat} {h : Histogram} (hi : (fillEach hs vs f st).1[i]? = some h) :
    h.Tallied (fillEach hs vs f st).2.2 (taken i + if vs[i]?.any Value.isNumber then 1 else 0) := by
  induction hs generalizing vs st taken i with
  | nil => cases hi
  | cons k hs ih =>
    cases vs with
    | nil => exact ht i h hi
    | cons v vs =>
      obtain ⟨hfk, hf⟩ := List.forall_mem_cons.1 hf
      obtain ⟨hapart, happ⟩ := List.pairwise_cons.1 happ
      obtain ⟨hfiller, hdata, hst⟩ := take_direct hq k v st
      have hk := (ht 0 k rfl).take hq hfk v
      rw [fillEach_cons, hfiller] at hi ⊢
      cases i with
      | zero =>
        obtain rfl := Option.some.inj hi
        -- the histograms behind it have bins of their own
        refine hk.agree ((fillEach_direct hq hs vs _).2.mono fun j hj l hl hjl => ?_)
        rw [hdata] at hj
        exact hapart l.data (List.mem_map_of_mem hl) j hj hjl
      | succ i =>
        have hfits : ∀ l ∈ hs, l.Fits (k.take v f st).2.2 := fun l hl =>
          ⟨(hf l hl).bins, hst.slots_eq ▸ (hf l hl).stop, hst.slots_eq ▸ (hf l hl).room⟩
        have htail : ∀ (j : Nat) (l : Histogram), hs[j]? = some l →
            l.Tallied (k.take v f st).2.2 (taken (j + 1)) := fun j l hl =>
          (ht (j + 1) l hl).agree (hst.mono fun m hm hmk => hapart l.data
            (List.mem_map_of_mem (List.mem_of_getElem? hl)) m hmk hm)
        exact ih hfits happ vs htail hi

end Histogram

namespace PlaneHistogram

def Tallied (h : PlaneHistogram) (st : Store) (taken : Nat) : Prop :=
  Readout.Tallied st h.data h.entries h.underflow h.overflow taken

theorem bins_fill (h : PlaneHistogram) (a b : Value) (f : Filler) (st : Store) :
    (h.fill a b f st).1.xBins = h.xBins ∧ (h.fill a b f st).1.yBins = h.yBins := by
  rw [fill]
  split
  · exact ⟨rfl, rfl⟩
  · cases h.x.bin h.xBins a <;> cases h.y.bin h.yBins b <;> exact ⟨rfl, rfl⟩

/-- A valid pair is counted if both coordinates are numbers. -/
theorem Tallied.fill {h : PlaneHistogram} (ht : h.Tallied st taken) (hq : f.strategy = .direct)
    (hx : 0 < h.xBins) (hy : 0 < h.yBins) (hl : h.data.length = h.xBins * h.yBins)
    (hd : h.data.stop ≤ st.slots) (hroom : st.slots < Word.size 32) {a b : Value}
    (hvalid : (a.isValid && b.isValid) = true) :
    (h.fill a b f st).1.Tallied (h.fill a b f st).2.2
      (taken + if a.isNumber && b.isNumber then 1 else 0) := by
  have hnumber : (a.isNumber && b.isNumber) = !(a.isNaN || b.isNaN) := by
    simp only [Bool.and_eq_true] at hvalid
    simp only [Value.isNumber, hvalid, Bool.true_and, Bool.not_or]
  rw [PlaneHistogram.fill, hnumber]
  cases a.isNaN || b.isNaN with
  | true => exact ht
  | false =>
    rcases hi : h.x.bin h.xBins a with - | - | i <;> rcases hj : h.y.bin h.yBins b with - | - | j
    case index.index =>
      have hcell : h.cell i j < h.data.length :=
        hl ▸ cell_lt (Axis.bin_lt hx hi) (Axis.bin_lt hy hj)
      exact ht.add_entry hq hd hroom hcell
    all_goals first | exact ht.add_underflow | exact ht.add_overflow

end PlaneHistogram

end Filling

/-- The input of a histogram that counts the values of one element is a number. -/
def takesElement (i : Nat) (ins : List (List Value)) : Bool :=
  (ins.headD [])[i]?.any Value.isNumber

/-- Both coordinates of a pair are numbers. -/
def takesPair (ins : List (List Value)) : Bool :=
  (pairOf? ins).any fun (a, b) => a.isNumber && b.isNumber

/-- All histograms of a kind have counted as many coordinates as inputs passed their tests. -/
def Kind.Tallied (st : Store) (taken : (List (List Value) → Bool) → Nat) : Kind → Prop
  | histograms hs => ∀ (i : Nat) (h : Histogram), hs[i]? = some h →
      h.Tallied st (taken (takesElement i))
  | planeHistogram h => h.xBins * h.yBins < Word.size 64 → h.Tallied st (taken takesPair)
  | _ => True

namespace Kind

variable {st t : Store} {taken : (List (List Value) → Bool) → Nat} {k : Kind}

theorem Tallied.agree (h : k.Tallied st taken) (hst : st.AgreeOn (fun i => ∃ p ∈ k.bins, i ∈ p) t) :
    k.Tallied t taken := by
  cases k with
  | histograms hs =>
    exact fun i l hl => (h i l hl).agree (hst.mono fun j hj =>
      ⟨l.data, List.mem_map_of_mem (List.mem_of_getElem? hl), hj⟩)
  | planeHistogram l =>
    exact fun hl => (h hl).agree (hst.mono fun j hj => ⟨l.data, List.mem_cons_self, hj⟩)
  | _ => trivial

end Kind

namespace Operator

variable {op : Operator} {f : Frame} {taken : (List (List Value) → Bool) → Nat}

/-- A step of an operator whose gate is open counts the coordinates that its inputs hold. -/
theorem tallied_step (hq : f.filler.strategy = .direct) (hs : op.Shaped)
    (hroom : f.store.slots < Word.size 32) (hfit : ∀ p ∈ op.kind.bins, p.stop ≤ f.store.slots)
    (happ : op.kind.bins.Pairwise Span.Apart) (h : op.kind.Tallied f.store taken) :
    (op.step f).1.kind.Tallied (op.step f).2.store fun test =>
      taken test + if op.isOpen f.bits && test (op.inputValues f) then 1 else 0 := by
  have hrest := congrArg kind (op.resting_step f)
  obtain ⟨inputs, outputs, gate, kind⟩ := op
  cases kind with
  | histograms hists =>
    obtain ⟨-, -, hout, -, hbins⟩ := hs
    obtain rfl : outputs = [] := hout
    rw [step]
    cases hopen : isOpen _ f.bits with
    | false => exact h
    | true =>
      intro i l hl
      exact Histogram.tallied_fillEach hq (fun k hk => ⟨hbins k hk,
        hfit k.data (List.mem_map_of_mem hk), hroom⟩) happ _ h hl
  | planeHistogram hist =>
    obtain ⟨x, y, hin, hout, hx, hy, hxb, hyb, hl⟩ := hs
    obtain rfl : inputs = [x, y] := hin
    obtain rfl : outputs = [] := hout
    rw [step]
    cases hopen : isOpen _ f.bits with
    | false => exact h
    | true =>
      let a := f.store.get x.data 0
      let b := f.store.get y.data 0
      have hins : inputValues ⟨[x, y], [], gate, .planeHistogram hist⟩ f = [[a], [b]] := by
        simp only [inputValues, List.map_cons, List.map_nil, Frame.values,
          f.store.values_of_length_one hx, f.store.values_of_length_one hy, a, b]
      simp only [if_true, Bool.true_and, compute, hins, pairOf?]
      cases hvalid : a.isValid && b.isValid with
      | false =>
        have hnumber : (a.isNumber && b.isNumber) = false := by
          rcases Bool.and_eq_false_iff.1 hvalid with hv | hv <;> simp [Value.isNumber, hv]
        intro hmany
        change hist.Tallied f.store (taken takesPair + if a.isNumber && b.isNumber then 1 else 0)
        rw [hnumber]
        exact h hmany
      | true =>
        intro hmany
        rw [(hist.bins_fill a b _ _).1, (hist.bins_fill a b _ _).2] at hmany
        exact (h hmany).fill hq hxb hyb (hl.trans (Nat.mod_eq_of_lt hmany))
          (hfit hist.data List.mem_cons_self) hroom hvalid
  | _ =>
    -- a kind that is no histogram does not become one
    simp only [kind_resting] at hrest
    generalize (step _ f).1.kind = l at hrest ⊢
    cases l with
    | histograms | planeHistogram => cases hrest
    | _ => trivial

/-- When a run begins all counts are zero. -/
theorem tallied_beginRun (hfit : ∀ p ∈ op.kind.bins, p.stop ≤ f.store.slots) :
    (op.beginRun f).1.kind.Tallied (op.beginRun f).2.store fun _ => 0 := by
  have hzero : ∀ p ∈ op.kind.bins, (∀ x ∈ op.kind.cleared, x.2 = Value.zero) →
      (op.beginRun f).2.store.values p = List.replicate p.length Value.zero := by
    intro p hp hcleared
    rw [beginRun_store]
    refine Store.values_fillAll hcleared ?_ (hfit p hp)
    rw [Kind.spans_cleared]
    exact List.mem_append_right _ hp
  obtain ⟨inputs, outputs, gate, kind⟩ := op
  cases kind with
  | histograms hs =>
    have hcleared : ∀ x ∈ (Kind.histograms hs).cleared, x.2 = Value.zero := by
      simp [Kind.cleared]
    simp only [beginRun, Histogram.clearEach_eq] at hzero ⊢
    intro i h hi
    obtain ⟨k, hk, rfl⟩ := Option.map_eq_some_iff.1 (List.getElem?_map.symm.trans hi)
    exact Readout.Tallied.blank (hzero k.data
      (List.mem_map_of_mem (List.mem_of_getElem? hk)) hcleared)
  | planeHistogram h =>
    have hcleared : ∀ x ∈ (Kind.planeHistogram h).cleared, x.2 = Value.zero := by
      simp [Kind.cleared]
    exact fun _ => Readout.Tallied.blank (hzero h.data List.mem_cons_self hcleared)
  | exportSink s => trivial
  | _ => trivial

theorem endRun_store (op : Operator) (f : Frame) : (op.endRun f).2.store = f.store := by
  obtain ⟨inputs, outputs, gate, kind⟩ := op
  cases kind <;> rfl

theorem tallied_endRun {st : Store} (h : op.kind.Tallied st taken) (f : Frame) :
    (op.endRun f).1.kind.Tallied st taken := by
  obtain ⟨inputs, outputs, gate, kind⟩ := op
  cases kind <;> exact h

theorem tallied_tick {st : Store} (h : op.kind.Tallied st taken) (t : Store) :
    (op.tick t).kind.Tallied st taken := by
  obtain ⟨inputs, outputs, gate, kind⟩ := op
  cases kind <;> exact h

end Operator

end Readout
