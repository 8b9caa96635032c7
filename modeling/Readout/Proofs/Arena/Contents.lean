import Readout.Proofs.Arena.Ledger

/-!
# What new spans hold

A span holds one value in all of its elements when it is new, and later allocations leave it so.
`Fills` states this for a whole computation, with the spans whose values are known at its start
and at its end, which makes it compose along binds.
-/
namespace Readout.Arena

/-- Spans of a ledger, each with the value that all its elements have. -/
structure Ledger.Holds (l : Ledger) (kept : List (Span × Value)) : Prop where
  sound : l.Sound
  listed : ∀ q ∈ kept, q.1 ∈ l.vectors
  reads : ∀ q ∈ kept, ∀ i < q.1.length, l.arena.store.get q.1 i = q.2

namespace Ledger.Holds

variable {l : Ledger} {kept kept' : List (Span × Value)}

theorem nil (h : l.Sound) : l.Holds [] := ⟨h, by simp, by simp⟩

theorem mono (h : l.Holds kept) (hsub : kept' ⊆ kept) : l.Holds kept' :=
  ⟨h.sound, fun q hq => h.listed q (hsub hq), fun q hq => h.reads q (hsub hq)⟩

theorem pushFilled (h : l.Holds kept) {length : Nat} {v : Value} {p : Span} {b : Arena}
    (hb : Arena.pushFilled length v l.arena = (.ok p, b)) :
    ∃ l' : Ledger, l'.arena = b ∧ l'.Holds ((p, v) :: kept) := by
  have hgrants := h.sound.grantsVector length v
  have hlength := (hgrants.granted p b hb).1
  have hnext : l.apply (.vector length v) = ⟨b, p.bytes :: l.blocks, p :: l.vectors⟩ := by
    simp only [Ledger.apply, hb]
  refine ⟨l.apply (.vector length v), by rw [hnext], h.sound.apply _, ?_, ?_⟩ <;> rw [hnext]
  · intro q hq
    rcases List.mem_cons.1 hq with rfl | hq
    · exact List.mem_cons_self
    · exact List.mem_cons_of_mem _ (h.listed q hq)
  · intro q hq i hi
    rcases List.mem_cons.1 hq with rfl | hq
    · exact hgrants.filled _ b hb i (hlength ▸ hi)
    · rw [hgrants.spared p b hb q.1 (h.listed q hq) i hi]
      exact h.reads q hq i hi

end Ledger.Holds

/-- Begun with the spans `base`, whose values are known, a computation that returns `v` ends with
the spans `made v`. -/
def Fills {α : Type} (base : List (Span × Value)) (x : Alloc α)
    (made : α → List (Span × Value)) : Prop :=
  ∀ (l : Ledger) (kept : List (Span × Value)) (v : α) (b : Arena), l.Holds (base ++ kept) →
    x l.arena = (.ok v, b) → ∃ l' : Ledger, l'.arena = b ∧ l'.Holds (made v ++ kept)

namespace Fills

variable {α β : Type} {base : List (Span × Value)} {x : Alloc α} {k : α → Alloc β}
  {made : α → List (Span × Value)} {made' : β → List (Span × Value)}

theorem pure {v : α} (h : made v ⊆ base) : Fills base (Pure.pure v : Alloc α) made := by
  intro l kept w b hl hw
  cases hw
  refine ⟨l, rfl, hl.mono (List.append_subset.2 ⟨fun q hq => ?_, List.subset_append_right _ _⟩)⟩
  exact List.mem_append_left _ (h hq)

theorem throw {e : Error} : Fills base (MonadExcept.throw e : Alloc α) made := by
  intro l kept w b _ hw
  cases hw

theorem bind (hx : Fills base x made) (hk : ∀ v, Fills (made v) (k v) made') :
    Fills base (x >>= k) made' := by
  intro l kept w b hl hw
  rw [bind_apply] at hw
  rcases hxa : x l.arena with ⟨r | v, c⟩
  · rw [hxa] at hw
    cases hw
  · rw [hxa] at hw
    obtain ⟨l', rfl, hl'⟩ := hx l kept v c hl hxa
    exact hk v l' kept w b hl' hw

theorem frame (h : Fills [] x made) (base : List (Span × Value)) :
    Fills base x (fun v => made v ++ base) := by
  intro l kept v b hl hv
  obtain ⟨l', hb, hl'⟩ := h l (base ++ kept) v b hl hv
  exact ⟨l', hb, by rwa [List.append_assoc]⟩

theorem check {c : Prop} [Decidable c] {e : Error} {f : PUnit → Alloc α}
    (hf : Fills base (f ⟨⟩) made) :
    Fills base (if c then MonadExcept.throw e >>= f else f ⟨⟩) made := by
  split
  · have hthrow : Fills base (MonadExcept.throw e : Alloc PUnit) fun _ => base := throw
    exact hthrow.bind fun _ => hf
  · exact hf

theorem pushFilled (length : Nat) (v : Value) :
    Fills [] (Arena.pushFilled length v) fun p => [(p, v)] :=
  fun _ _ _ _ hl hb => hl.pushFilled hb

end Fills

end Readout.Arena

namespace Readout.Pipe

/-- A new pipe has its limits and no valid value. -/
def contents (lower upper : Value) (p : Pipe) : List (Span × Value) :=
  [(p.upper, upper), (p.lower, lower), (p.data, Value.invalid)]

theorem forall_mem_contents {lower upper : Value} {p : Pipe} {P : Span × Value → Prop} :
    (∀ q ∈ p.contents lower upper, P q) ↔
      P (p.upper, upper) ∧ P (p.lower, lower) ∧ P (p.data, Value.invalid) := by
  simp only [contents, List.forall_mem_cons, List.not_mem_nil, false_imp_iff, implies_true,
    and_true]

theorem fills_push (length : Nat) (lower upper : Value) :
    Arena.Fills [] (push length lower upper) (contents lower upper) := by
  refine (Arena.Fills.pushFilled length Value.invalid).bind fun data => ?_
  refine ((Arena.Fills.pushFilled length lower).frame _).bind fun low => ?_
  refine ((Arena.Fills.pushFilled length upper).frame _).bind fun up => ?_
  exact .pure (List.Subset.refl _)

end Readout.Pipe
