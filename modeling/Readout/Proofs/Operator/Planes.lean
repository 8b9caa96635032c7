import Readout.Proofs.Operator.Edges

/-!
# Cells of a plane

The bins of a plane are stored row by row, one cell for each pair of them as long as a word holds
their number. Then a pair of coordinates on the plane raises the cell in which it is looked up and
no other, and a pair beside the plane raises none (`PlaneHistogram.fill_cells`). A number of bins
beyond that is taken modulo the word size, and what is filled outside of the cells that are left is
dropped (`PlaneHistogram.fill_without_cells`).
-/
namespace Readout

/-- A counter that was raised by one: also the number that it stands for, as long as it is below
two to the 53. -/
def Value.Next (v w : Value) : Prop :=
  w = v + one ∧ ∀ n : ℕ, n + 1 < 2 ^ 53 → v = ofNat n → w = ofNat (n + 1)

theorem Value.next_add_one (v : Value) : v.Next (v + one) :=
  ⟨rfl, fun _ hn hv => by rw [hv, ofNat_succ hn]⟩

namespace Axis

/-- The coordinate lies on neither side of the axis. -/
def Holds (a : Axis) (x : Value) : Prop :=
  Value.below x a.min = false ∧ Value.atMost a.max x = false

instance (a : Axis) (x : Value) : Decidable (a.Holds x) :=
  inferInstanceAs (Decidable (_ ∧ _))

theorem holds_iff (a : Axis) {bins : ℕ} (hb : 0 < bins) (x : Value) :
    a.Holds x ↔ ∃ i < bins, a.bin bins x = .index i := by
  constructor
  · rintro ⟨hunder, hover⟩
    obtain ⟨i, hi⟩ : ∃ i, a.bin bins x = .index i := by simp [bin, hunder, hover]
    exact ⟨i, bin_lt hb hi, hi⟩
  · rintro ⟨i, -, hi⟩
    rw [bin] at hi
    split at hi
    · cases hi
    · next hunder =>
      split at hi
      · cases hi
      · next hover => exact ⟨Bool.eq_false_iff.2 hunder, Bool.eq_false_iff.2 hover⟩

end Axis

namespace PlaneHistogram

theorem push_eq_ok {l : Arena.Ledger} (hl : l.Sound) {xBins yBins : ℕ} {x y : Axis}
    {made : PlaneHistogram} {a : Arena} (hpush : push xBins yBins x y l.arena = (.ok made, a)) :
    (0 < xBins ∧ 0 < yBins) ∧ (made.x = x ∧ made.y = y ∧ made.xBins = xBins ∧ made.yBins = yBins) ∧
      made.data.length = xBins * yBins % Word.size 64 ∧ made.data.stop ≤ a.store.slots ∧
        a.store.slots < Word.size 32 := by
  rw [push] at hpush
  split at hpush
  · obtain ⟨_, _, hthrow, -⟩ := exists_of_bind_apply_eq hpush
    cases hthrow
  · next hcond =>
    obtain ⟨data, b, hdata, hpure⟩ := exists_of_bind_apply_eq hpush
    obtain ⟨hmade, rfl⟩ := Prod.mk.inj hpure
    obtain rfl := Except.ok.inj hmade
    exact ⟨by omega, ⟨rfl, rfl, rfl, rfl⟩, hl.pushSpan_eq_ok hdata⟩

section Cells

variable {h : PlaneHistogram} (hexact : h.xBins * h.yBins < Word.size 64)

include hexact

theorem cell_eq {i j : ℕ} (hi : i < h.xBins) (hj : j < h.yBins) : h.cell i j = j * h.xBins + i := by
  have hrow : j * h.xBins + h.xBins ≤ h.xBins * h.yBins := by
    rw [← Nat.succ_mul, Nat.mul_comm h.xBins]
    exact Nat.mul_le_mul_right _ hj
  exact Nat.mod_eq_of_lt (by omega)

/-- The place in a row and the number of the row are read back from a cell. -/
theorem cell_inj {i j i' j' : ℕ} (hi : i < h.xBins) (hj : j < h.yBins) (hi' : i' < h.xBins)
    (hj' : j' < h.yBins) (heq : h.cell i j = h.cell i' j') : i = i' ∧ j = j' := by
  rw [cell_eq hexact hi hj, cell_eq hexact hi' hj'] at heq
  have hplace : i = i' := by
    have hmod := congrArg (· % h.xBins) heq
    simpa [Nat.mul_add_mod', Nat.mod_eq_of_lt hi, Nat.mod_eq_of_lt hi'] using hmod
  subst hplace
  exact ⟨rfl, Nat.eq_of_mul_eq_mul_right (Nat.zero_lt_of_lt hi) (Nat.add_right_cancel heq)⟩

end Cells

/-- The cells that are seen behind a fill once the queue was flushed. -/
def flushed (r : PlaneHistogram × Filler × Store) : Store := (r.2.1.flush r.2.2).2

/-- A pair was counted in the cell of two bins and nowhere else. -/
structure Enters (h : PlaneHistogram) (f : Filler) (st : Store) (u v : Value) (i j : ℕ) : Prop where
  cell : ((f.flush st).2.read (h.data.offset + h.cell i j)).Next
    ((flushed (h.fill u v f st)).read (h.data.offset + h.cell i j))
  rest : ∀ k, k ≠ h.data.offset + h.cell i j →
    (flushed (h.fill u v f st)).read k = (f.flush st).2.read k
  entries : h.entries.Next (h.fill u v f st).1.entries
  sides : (h.fill u v f st).1.underflow = h.underflow ∧ (h.fill u v f st).1.overflow = h.overflow
  content : (h.fill u v f st).1.content (flushed (h.fill u v f st)) u v =
    (flushed (h.fill u v f st)).get h.data (h.cell i j)

/-- A pair was counted on one side of the plane and in no cell. -/
structure Misses (h : PlaneHistogram) (f : Filler) (st : Store) (u v : Value) : Prop where
  cells : (h.fill u v f st).2 = (f, st)
  entries : (h.fill u v f st).1.entries = h.entries
  sides : (h.underflow.Next (h.fill u v f st).1.underflow ∧
      (h.fill u v f st).1.overflow = h.overflow) ∨
    ((h.fill u v f st).1.underflow = h.underflow ∧
      h.overflow.Next (h.fill u v f st).1.overflow)

section Fill

variable {h : PlaneHistogram} {f : Filler} {st : Store} {u v : Value}

theorem misses_of_not_holds (hnan : (u.isNaN || v.isNaN) = false) (hx : 0 < h.xBins)
    (hy : 0 < h.yBins) (hbeside : ¬ (h.x.Holds u ∧ h.y.Holds v)) : h.Misses f st u v := by
  rw [h.x.holds_iff hx, h.y.holds_iff hy] at hbeside
  have hfill : h.fill u v f st = ({ h with underflow := h.underflow + Value.one }, f, st) ∨
      h.fill u v f st = ({ h with overflow := h.overflow + Value.one }, f, st) := by
    rw [fill, if_neg (by simp [hnan])]
    rcases hi : h.x.bin h.xBins u with - | - | i <;> rcases hj : h.y.bin h.yBins v with - | - | j
    case index.index =>
      exact absurd ⟨⟨i, Axis.bin_lt hx hi, hi⟩, ⟨j, Axis.bin_lt hy hj, hj⟩⟩ hbeside
    all_goals first | exact .inl rfl | exact .inr rfl
  rcases hfill with heq | heq <;> refine ⟨?_, ?_, ?_⟩ <;> rw [heq]
  · exact .inl ⟨Value.next_add_one _, rfl⟩
  · exact .inr ⟨rfl, Value.next_add_one _⟩

theorem enters_of_bins (hnan : (u.isNaN || v.isNaN) = false) (hd : h.data.stop ≤ st.slots)
    (hroom : st.slots < Word.size 32) {i j : ℕ} (hi : h.x.bin h.xBins u = .index i)
    (hj : h.y.bin h.yBins v = .index j) (hcell : h.cell i j < h.data.length) :
    h.Enters f st u v i j := by
  have hfill : h.fill u v f st =
      ({ h with entries := h.entries + Value.one }, f.increment st h.data (h.cell i j)) := by
    rw [fill, if_neg (by simp [hnan]), hi, hj]
  have hstop : h.data.offset + h.cell i j < st.slots := by
    rw [Span.stop] at hd
    omega
  have helement : h.data.element? (h.cell i j) = some ⟨h.data.offset + h.cell i j, 1⟩ := by
    rw [Span.element?, if_pos hcell, Span.make?, if_pos (by omega)]
  have hread := f.read_flush_increment st helement
  have hhits : ∀ k, (⟨h.data.offset + h.cell i j, 1⟩ : Span).Hits 0 st.slots k ↔
      k = h.data.offset + h.cell i j := by
    intro k
    change (0 < 1 ∧ h.data.offset + h.cell i j + 0 = k ∧ k < st.slots) ↔ _
    omega
  simp only [hhits] at hread
  refine ⟨?_, fun k hk => ?_, ?_, ?_, ?_⟩ <;> rw [hfill]
  · change Value.Next _ (((f.increment st h.data _).1.flush (f.increment st h.data _).2).2.read _)
    rw [hread, if_pos rfl]
    exact Value.next_add_one _
  · change ((f.increment st h.data _).1.flush (f.increment st h.data _).2).2.read k = _
    rw [hread, if_neg hk]
  · exact Value.next_add_one _
  · exact ⟨rfl, rfl⟩
  · simp only [content, hi, hj]
    rfl

end Fill

/-- The plane with other counts, as fills and runs leave them behind. -/
def counting (h : PlaneHistogram) (entries underflow overflow : Value) : PlaneHistogram :=
  { h with entries := entries, underflow := underflow, overflow := overflow }

/-- A plane that was accepted has a cell for each pair of bins exactly if a word holds their number.
Then each pair of bins has a cell of its own, and a fill counts a pair of coordinates in the cell
where it is looked up or on one side of the plane, or not at all if one of them is a NaN. -/
theorem fill_cells {bytes xBins yBins : ℕ} {requests : List Arena.Request} {x y : Axis}
    {made : PlaneHistogram} {a : Arena}
    (hpush : push xBins yBins x y ((Arena.Ledger.new bytes).after requests).arena = (.ok made, a)) :
    (made.data.length = xBins * yBins ↔ xBins * yBins < Word.size 64) ∧
      (xBins * yBins < Word.size 64 →
        (∀ i < xBins, ∀ j < yBins, made.cell i j < made.data.length ∧
          ∀ i' < xBins, ∀ j' < yBins, made.cell i j = made.cell i' j' → i = i' ∧ j = j') ∧
        ∀ (entries underflow overflow : Value) (f : Filler) (st : Store) (u v : Value),
          st.slots = a.store.slots →
            let h := made.counting entries underflow overflow
            if u.isNaN || v.isNaN then h.fill u v f st = (h, f, st)
            else if x.Holds u ∧ y.Holds v then
              ∃ i < xBins, ∃ j < yBins, x.bin xBins u = .index i ∧ y.bin yBins v = .index j ∧
                h.Enters f st u v i j
            else h.Misses f st u v) := by
  obtain ⟨⟨hx, hy⟩, ⟨rfl, rfl, rfl, rfl⟩, hlength, hstop, hroom⟩ :=
    push_eq_ok ((Arena.Ledger.sound_new bytes).after requests) hpush
  refine ⟨⟨fun h => ?_, fun h => hlength.trans (Nat.mod_eq_of_lt h)⟩, fun hexact => ?_⟩
  · rw [← h, hlength]
    exact Nat.mod_lt _ (by decide)
  · rw [Nat.mod_eq_of_lt hexact] at hlength
    have hlt : ∀ i < made.xBins, ∀ j < made.yBins, made.cell i j < made.data.length :=
      fun i hi j hj => hlength ▸ cell_lt hi hj
    have hcells : ∀ i < made.xBins, ∀ j < made.yBins, ∀ i' < made.xBins, ∀ j' < made.yBins,
        made.cell i j = made.cell i' j' → i = i' ∧ j = j' :=
      fun i hi j hj i' hi' j' hj' => cell_inj hexact hi hj hi' hj'
    refine ⟨fun i hi j hj => ⟨hlt i hi j hj, hcells i hi j hj⟩, ?_⟩
    intro entries underflow overflow f st u v hst h
    split
    · next hnan => exact if_pos hnan
    · next hnan =>
      rw [Bool.not_eq_true] at hnan
      split
      · next hin =>
        obtain ⟨i, hi, hbin⟩ := (made.x.holds_iff hx u).1 hin.1
        obtain ⟨j, hj, hbin'⟩ := (made.y.holds_iff hy v).1 hin.2
        exact ⟨i, hi, j, hj, hbin, hbin', enters_of_bins hnan (hst ▸ hstop) (hst ▸ hroom) hbin hbin'
          (hlt i hi j hj)⟩
      · next hout => exact misses_of_not_holds hnan hx hy hout

/-- Two bins by three, with a pair in the second row. -/
theorem fill_cells_twoByThree : ∃ made a,
    push 2 3 (.ofLimits .zero .two) (.ofLimits .zero (.ofNat 3)) (Arena.Ledger.new 1024).arena =
        (.ok made, a) ∧
      made.data.length = 6 ∧
      (flushed (made.fill .one .one (.new .batched 1) a.store)).get made.data 3 = .ofNat 1 := by
  obtain ⟨made, a, hpush, hlength, hcounts, hzero, hcell⟩ : ∃ made a,
      push 2 3 (.ofLimits .zero .two) (.ofLimits .zero (.ofNat 3))
          ((Arena.Ledger.new 1024).after []).arena = (.ok made, a) ∧
        made.data.length = 6 ∧ made.counting .zero .zero .zero = made ∧
        ((Filler.new .batched 1).flush a.store).2.get made.data 3 = .ofNat 0 ∧
        made.cell 1 1 = 3 := by
    refine ⟨_, _, rfl, rfl, rfl, ?_, ?_⟩ <;> decide +kernel
  have hfill := ((fill_cells hpush).2 (by decide)).2 .zero .zero .zero (.new .batched 1) a.store
    .one .one rfl
  rw [if_neg (by decide), if_pos (by decide +kernel)] at hfill
  obtain ⟨i, -, j, -, hi, hj, henters⟩ := hfill
  have hbins : (Axis.ofLimits .zero .two).bin 2 .one = .index 1 ∧
      (Axis.ofLimits .zero (.ofNat 3)).bin 3 .one = .index 1 := by decide +kernel
  obtain rfl := Bin.index.inj (hi.symm.trans hbins.1)
  obtain rfl := Bin.index.inj (hj.symm.trans hbins.2)
  have hnext := henters.cell
  rw [hcounts, hcell] at hnext
  exact ⟨made, a, hpush, hlength, hnext.2 0 (by decide) hzero⟩

/-- The number of bins does not fit a word and no cell is left of it: the plane is accepted, and a
pair on it is counted as an entry that no cell shows. -/
theorem fill_without_cells : ∃ made a,
    push (2 ^ 32) (2 ^ 32) (.ofLimits .zero .one) (.ofLimits .zero .one)
        (Arena.Ledger.new 1024).arena = (.ok made, a) ∧
      made.data.length = 0 ∧ made.x.Holds .zero ∧ made.y.Holds .zero ∧
      (made.fill .zero .zero (.new .direct 0) a.store).1.entries = .one ∧
      (made.fill .zero .zero (.new .direct 0) a.store).2.2 = a.store := by
  refine ⟨_, _, rfl, rfl, ?_, ?_, ?_, rfl⟩ <;> decide +kernel

end PlaneHistogram

end Readout
