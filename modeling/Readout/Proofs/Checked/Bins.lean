import Readout.Proofs.Checked.Operator
import Readout.Proofs.Operator.Filling

/-!
# Bins in range

A coordinate inside of an axis goes to a bin that is there: rounding is cut off at the last bin, and
in a plane the rows lie behind each other as long as their product is not taken modulo anything.
-/
namespace Readout

variable {s : Store} {f : Filler}

theorem Span.stop_element_le {data cell : Span} {bin : Nat} (h : data.element? bin = some cell) :
    cell.stop ≤ data.stop ∧ cell.length = 1 := by
  obtain ⟨hb, rfl⟩ := element?_eq_some h
  refine ⟨?_, rfl⟩
  change data.offset + bin + 1 ≤ data.offset + data.length
  omega

namespace Filler

/-- The queued bins lie in a store with so many slots. -/
def Fits (f : Filler) (slots : Nat) : Prop := ∀ cell ∈ f.queue, cell.stop ≤ slots ∧ cell.length = 1

theorem increment?_eq {data : Span} {bin : Nat} (hd : data.stop ≤ s.slots)
    (hb : bin < data.length) : f.increment? s data bin = some (f.increment s data bin) := by
  rw [increment?, if_pos hb, increment]
  cases hc : data.element? bin with
  | none => rfl
  | some cell =>
    obtain ⟨hstop, hlen⟩ := Span.stop_element_le hc
    have hview : s.view? [cell] = some () :=
      Store.view?_eq (List.forall_mem_singleton.2 (Nat.le_trans hstop hd))
    have hinc : s.increment? cell 0 = some (s.increment cell 0) :=
      Store.increment?_eq (hlen ▸ Nat.zero_lt_one)
    dsimp only
    split
    · rfl
    · rw [hview, hinc]
      rfl

theorem Fits.increment {slots : Nat} (h : f.Fits slots) {data : Span} (hd : data.stop ≤ slots)
    (bin : Nat) : (f.increment s data bin).1.Fits slots := by
  rw [Filler.increment]
  cases hc : data.element? bin with
  | none => exact h
  | some cell =>
    obtain ⟨hstop, hlen⟩ := Span.stop_element_le hc
    dsimp only
    split
    · exact List.forall_mem_cons.2 ⟨⟨Nat.le_trans hstop hd, hlen⟩, h⟩
    · exact h

theorem slots_increment (f : Filler) (s : Store) (data : Span) (bin : Nat) :
    (f.increment s data bin).2.slots = s.slots :=
  (f.increment_frame (P := fun _ => False) s bin fun _ _ => id).slots_eq.symm

theorem flush?_eq (h : f.Fits s.slots) : f.flush? s = some (f.flush s) := by
  have hcells : ∀ q : List Span, (∀ cell ∈ q, cell.stop ≤ s.slots ∧ cell.length = 1) →
      (q.foldrM (fun cell t => do
        t.view? [cell]
        t.increment? cell 0) s) = some (q.foldr (fun cell t => t.increment cell 0) s) ∧
      (q.foldr (fun cell t => t.increment cell 0) s).slots = s.slots := by
    intro q
    induction q with
    | nil => exact fun _ => ⟨rfl, rfl⟩
    | cons cell q ih =>
      intro hq
      obtain ⟨⟨hstop, hlen⟩, hq⟩ := List.forall_mem_cons.1 hq
      obtain ⟨hfold, hslots⟩ := ih hq
      refine ⟨?_, (Store.slots_increment _ cell 0).trans hslots⟩
      have hview : ∀ t : Store, t.slots = s.slots → t.view? [cell] = some () := fun t ht =>
        Store.view?_eq (List.forall_mem_singleton.2 (ht ▸ hstop))
      have hinc : ∀ t : Store, t.increment? cell 0 = some (t.increment cell 0) := fun t =>
        Store.increment?_eq (hlen ▸ Nat.zero_lt_one)
      rw [List.foldrM_cons, hfold]
      simp only [Option.bind_eq_bind, Option.bind_some, hview _ hslots, hinc, List.foldr_cons]
  rw [flush?, (hcells f.queue h).1]
  rfl

end Filler

namespace Histogram

theorem target_lt {h : Histogram} (hb : 0 < h.bins) {x : Value} {i : Nat}
    (ht : h.target x = .index i) : i < h.data.length := by
  rw [target] at ht
  split at ht
  · cases ht
  · split at ht
    · cases ht
    · obtain rfl := Bin.index.inj ht
      exact Nat.lt_of_le_of_lt (Nat.min_le_right _ _) (Nat.sub_lt hb Nat.zero_lt_one)

theorem fill?_eq {h : Histogram} (hb : 0 < h.bins) (hd : h.data.stop ≤ s.slots) (x : Value) :
    h.fill? x f s = some (h.fill x f s) := by
  rw [fill?, fill]
  split
  · rfl
  · cases ht : h.target x with
    | index i =>
      dsimp only
      rw [Filler.increment?_eq hd (target_lt hb ht)]
      rfl
    | _ => rfl

theorem slots_fill (h : Histogram) (x : Value) (f : Filler) (s : Store) :
    (h.fill x f s).2.2.slots = s.slots := by
  rw [fill]
  split
  · rfl
  · cases h.target x with
    | index i => exact f.slots_increment s h.data i
    | _ => rfl

theorem fillEach?_eq {hs : List Histogram} (hb : ∀ h ∈ hs, 0 < h.bins)
    (hd : ∀ h ∈ hs, h.data.stop ≤ s.slots) (vs : List Value) (f : Filler) :
    fillEach? hs vs f s = some (fillEach hs vs f s) := by
  induction hs generalizing vs f s with
  | nil => cases vs <;> rfl
  | cons h hs ih =>
    cases vs with
    | nil => rfl
    | cons v vs =>
      obtain ⟨hbh, hbs⟩ := List.forall_mem_cons.1 hb
      obtain ⟨hdh, hds⟩ := List.forall_mem_cons.1 hd
      rw [fillEach?, fillEach]
      by_cases hv : v.isValid = true
      · have hslots := h.slots_fill v f s
        rw [if_pos hv, if_pos hv, fill?_eq hbh hdh]
        rcases hfill : h.fill v f s with ⟨h', f', s'⟩
        rw [hfill] at hslots
        have hrest := ih hbs (fun k hk => hslots ▸ hds k hk) vs f'
        simp only [Option.bind_eq_bind, Option.bind_some, hrest]
        rfl
      · rw [if_neg hv, if_neg hv]
        have hrest := ih hbs hds vs f
        simp only [Option.bind_eq_bind, Option.bind_some, hrest]
        rfl

end Histogram

theorem Axis.bin_lt {a : Axis} {bins i : Nat} (hb : 0 < bins) {x : Value}
    (h : a.bin bins x = .index i) : i < bins := by
  rw [bin] at h
  split at h
  · cases h
  · split at h
    · cases h
    · obtain rfl := Bin.index.inj h
      exact Nat.lt_of_le_of_lt (Nat.min_le_right _ _) (Nat.sub_lt hb Nat.zero_lt_one)

namespace PlaneHistogram

theorem cell_lt {h : PlaneHistogram} {i j : Nat} (hi : i < h.xBins) (hj : j < h.yBins) :
    h.cell i j < h.xBins * h.yBins := by
  refine Nat.lt_of_le_of_lt (Nat.mod_le _ _) ?_
  calc j * h.xBins + i < j * h.xBins + h.xBins := Nat.add_lt_add_left hi _
    _ = (j + 1) * h.xBins := (Nat.succ_mul j h.xBins).symm
    _ ≤ h.yBins * h.xBins := Nat.mul_le_mul_right _ hj
    _ = h.xBins * h.yBins := Nat.mul_comm _ _

theorem fill?_eq {h : PlaneHistogram} (hx : 0 < h.xBins) (hy : 0 < h.yBins)
    (hl : h.data.length = h.xBins * h.yBins)
    (hd : h.data.stop ≤ s.slots) (x y : Value) : h.fill? x y f s = some (h.fill x y f s) := by
  rw [fill?, fill]
  split
  · rfl
  · cases hi : h.x.bin h.xBins x with
    | index i =>
      cases hj : h.y.bin h.yBins y with
      | index j =>
        have hcell : h.cell i j < h.data.length :=
          hl ▸ cell_lt (Axis.bin_lt hx hi) (Axis.bin_lt hy hj)
        dsimp only
        rw [Filler.increment?_eq hd hcell]
        rfl
      | _ => rfl
    | _ => cases h.y.bin h.yBins y <;> rfl

end PlaneHistogram

end Readout
