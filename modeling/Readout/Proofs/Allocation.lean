import Mathlib.Data.List.Forall2
import Mathlib.Data.List.Perm.Basic
import Readout.Arena.Pipe
import Readout.Proofs.Store

/-!
# What allocations take

An allocation moves the cursor of its arena forward, and the spans it returns lie between the
cursor before it and the cursor after it. So they are apart from all spans that were taken earlier.
`Takes` states this for a whole computation: with the spans it has in hand at its start and at its
end, which makes it compose along binds, and with what else is known of its result.
-/
namespace Readout

/-- A computation that can fail goes on in the state that its first part has left. -/
theorem bind_apply {σ α β : Type} (x : ExceptT Error (StateM σ) α)
    (k : α → ExceptT Error (StateM σ) β) (a : σ) :
    (x >>= k) a =
      match x a with
      | (.ok v, b) => k v b
      | (.error e, b) => (.error e, b) := by
  simp only [Bind.bind, ExceptT.bind, ExceptT.mk, StateT.bind]
  rcases x a with ⟨r | r, b⟩ <;> rfl

/-- Both parts of a computation that succeeds succeed. -/
theorem exists_of_bind_apply_eq {σ α β : Type} {x : ExceptT Error (StateM σ) α}
    {k : α → ExceptT Error (StateM σ) β} {a b : σ} {w : β} (h : (x >>= k) a = (.ok w, b)) :
    ∃ v c, x a = (.ok v, c) ∧ k v c = (.ok w, b) := by
  rw [bind_apply] at h
  rcases hx : x a with ⟨r | v, c⟩
  · rw [hx] at h
    cases h
  · rw [hx] at h
    exact ⟨v, c, rfl, h⟩

theorem exists_of_bind_eq_ok {ε α β : Type} {x : Except ε α} {k : α → Except ε β} {b : β}
    (h : x >>= k = .ok b) : ∃ a, x = .ok a ∧ k a = .ok b := by
  cases x with
  | error e => cases h
  | ok a => exact ⟨a, rfl, h⟩

theorem exists_of_mapError_eq_ok {ε ε' α : Type} {x : Except ε α} {f : ε → ε'} {a : α}
    (h : x.mapError f = .ok a) : x = .ok a := by
  cases x with
  | error e => cases h
  | ok b => exact congrArg Except.ok (Except.ok.inj h)

/-- Spans that lie between two positions of the cursor, which counts bytes, and share no slot. -/
structure Placed (lo hi : Nat) (ps : List Span) : Prop where
  le : lo ≤ hi
  within : ∀ p ∈ ps,
    lo ≤ p.offset * Arena.valueSize ∧ (p.offset + p.length) * Arena.valueSize ≤ hi
  apart : ps.Pairwise Span.Apart

namespace Placed

variable {lo hi hi' : Nat} {p : Span} {ps qs : List Span}

theorem nil (h : lo ≤ hi) : Placed lo hi [] := ⟨h, by simp, List.Pairwise.nil⟩

theorem mono (h : Placed lo hi ps) (hh : hi ≤ hi') : Placed lo hi' ps :=
  ⟨Nat.le_trans h.le hh, fun p hp => ⟨(h.within p hp).1, Nat.le_trans (h.within p hp).2 hh⟩,
    h.apart⟩

theorem perm (h : Placed lo hi ps) (hp : ps.Perm qs) : Placed lo hi qs :=
  ⟨h.le, fun q hq => h.within q (hp.mem_iff.2 hq), h.apart.perm hp fun k => k.symm⟩

theorem cons (h : Placed lo hi ps) (hl : hi ≤ p.offset * Arena.valueSize)
    (hh : (p.offset + p.length) * Arena.valueSize ≤ hi') : Placed lo hi' (p :: ps) := by
  have hp : hi ≤ hi' := by
    have hm := Nat.mul_le_mul_right Arena.valueSize (Nat.le_add_right p.offset p.length)
    omega
  refine ⟨Nat.le_trans h.le hp, fun q hq => ?_, List.pairwise_cons.2 ⟨fun q hq => ?_, h.apart⟩⟩
  · rcases List.mem_cons.1 hq with rfl | hq
    · exact ⟨Nat.le_trans h.le hl, hh⟩
    · exact (h.mono hp).within q hq
  · refine (Span.apart_of_le ?_).symm
    have hpos : 0 < Arena.valueSize := by decide
    exact Nat.le_of_mul_le_mul_right (Nat.le_trans (h.within q hq).2 hl) hpos

end Placed

/-- What taking blocks may do to an arena. -/
structure Arena.Onward (a b : Arena) : Prop where
  capacity_eq : b.capacity = a.capacity
  used_le : a.used ≤ b.used
  fits : a.used ≤ a.capacity → b.used ≤ a.capacity
  slots_eq : b.store.slots = a.store.slots

namespace Arena.Onward

theorem refl (a : Arena) : a.Onward a := ⟨rfl, Nat.le_refl a.used, id, rfl⟩

theorem trans {a b c : Arena} (h : a.Onward b) (k : b.Onward c) : a.Onward c where
  capacity_eq := k.capacity_eq.trans h.capacity_eq
  used_le := Nat.le_trans h.used_le k.used_le
  fits ha := by
    have hb := h.fits ha
    have hc := k.fits (by rw [h.capacity_eq]; exact hb)
    rwa [h.capacity_eq] at hc
  slots_eq := k.slots_eq.trans h.slots_eq

end Arena.Onward

/-- A computation that takes blocks only, and whose results have the property `φ`. Begun with the
spans `base` in hand, it ends with the spans `own v` in hand if it returns `v`, apart from each
other and from all spans taken before. -/
structure Takes {α : Type} (base : List Span) (x : Alloc α) (own : α → List Span)
    (φ : α → Prop) : Prop where
  onward : ∀ a : Arena, a.Onward (x a).2
  result : ∀ (a : Arena) (v : α), (x a).1 = .ok v → φ v
  placed : ∀ (lo : Nat) (held : List Span) (a : Arena) (v : α), Placed lo a.used (base ++ held) →
    (x a).1 = .ok v → Placed lo (x a).2.used (own v ++ held)

namespace Takes

variable {α β : Type} {base : List Span} {x : Alloc α} {k : α → Alloc β} {own : α → List Span}
  {own' : β → List Span} {φ φ' : α → Prop} {ψ : β → Prop}

theorem pure {v : α} (hp : base.Perm (own v)) (hv : φ v) :
    Takes base (Pure.pure v : Alloc α) own φ where
  onward := Arena.Onward.refl
  result a w hw := by
    have hvw : v = w := Except.ok.inj hw
    exact hvw ▸ hv
  placed lo held a w h hw := by
    have hvw : v = w := Except.ok.inj hw
    subst hvw
    exact h.perm (hp.append_right held)

theorem throw {e : Error} : Takes base (MonadExcept.throw e : Alloc α) own φ where
  onward := Arena.Onward.refl
  result a w hw := by cases hw
  placed lo held a w h hw := by cases hw

theorem bind (hx : Takes base x own φ) (hk : ∀ v, φ v → Takes (own v) (k v) own' ψ) :
    Takes base (x >>= k) own' ψ := by
  refine ⟨fun a => ?_, fun a w hw => ?_, fun lo held a w h hw => ?_⟩
  · have ho := hx.onward a
    rw [bind_apply]
    rcases hxa : x a with ⟨r | v, b⟩
    · simpa [hxa] using ho
    · rw [hxa] at ho
      exact ho.trans ((hk v (hx.result a v (by rw [hxa]))).onward b)
  · rw [bind_apply] at hw
    rcases hxa : x a with ⟨r | v, b⟩
    · rw [hxa] at hw
      cases hw
    · rw [hxa] at hw
      exact (hk v (hx.result a v (by rw [hxa]))).result b w hw
  · rw [bind_apply] at hw ⊢
    rcases hxa : x a with ⟨r | v, b⟩
    · rw [hxa] at hw
      cases hw
    · rw [hxa] at hw
      have hb := hx.placed lo held a v h (by rw [hxa])
      rw [hxa] at hb
      exact (hk v (hx.result a v (by rw [hxa]))).placed lo held b w hb hw

theorem weaken (h : Takes base x own φ) (hφ : ∀ v, φ v → φ' v) : Takes base x own φ' :=
  ⟨h.onward, fun a v hv => hφ v (h.result a v hv), h.placed⟩

theorem frame (h : Takes [] x own φ) (base : List Span) :
    Takes base x (fun v => own v ++ base) φ := by
  refine ⟨h.onward, h.result, fun lo held a v hp hv => ?_⟩
  rw [List.append_assoc]
  exact h.placed lo (base ++ held) a v hp hv

theorem check {c : Prop} [Decidable c] {e : Error} {f : PUnit → Alloc α}
    (hf : ¬ c → Takes base (f ⟨⟩) own φ) :
    Takes base (if c then MonadExcept.throw e >>= f else f ⟨⟩) own φ := by
  split
  · have hthrow : Takes base (MonadExcept.throw e : Alloc PUnit) (fun _ => base) fun _ => False :=
      throw
    exact hthrow.bind fun _ h => h.elim
  · next hc => exact hf hc

/-- Looking at an arena, or writing to its store, takes nothing. -/
theorem look (f : Arena → α × Arena) (hf : ∀ a : Arena, a.Onward (f a).2)
    (hu : ∀ a, (f a).2.used = a.used) (hv : ∀ a, φ (f a).1) :
    Takes base (fun a => (Except.ok (f a).1, (f a).2) : Alloc α) (fun _ => base) φ where
  onward := hf
  result a v h := by
    have hvw : (f a).1 = v := Except.ok.inj h
    exact hvw ▸ hv a
  placed lo held a v h _ := by
    change Placed lo (f a).2.used (base ++ held)
    rw [hu]
    exact h

theorem values (p : Span) :
    Takes base (Arena.values p) (fun _ => base) fun vs => vs.length = p.length :=
  look (fun a => (a.store.values p, a)) Arena.Onward.refl (fun _ => rfl)
    fun a => by simp [Store.values]

theorem value (p : Span) (i : Nat) : Takes base (Arena.value p i) (fun _ => base) fun _ => True :=
  look (fun a => (a.store.get p i, a)) Arena.Onward.refl (fun _ => rfl) fun _ => trivial

theorem assign (p : Span) (vs : List Value) :
    Takes base (Arena.assign p vs) (fun _ => base) fun _ => True :=
  look (fun a => (PUnit.unit, { a with store := a.store.assign p vs }))
    (fun a => ⟨rfl, Nat.le_refl a.used, id, by simp⟩) (fun _ => rfl) fun _ => trivial

theorem mapM {γ : Type} {f : γ → Alloc α} {R : γ → α → Prop}
    (hf : ∀ c, Takes [] (f c) own (R c)) (cs : List γ) :
    Takes [] (cs.mapM f) (fun vs => vs.flatMap own) (List.Forall₂ R cs) := by
  induction cs with
  | nil => exact pure (List.Perm.refl []) List.Forall₂.nil
  | cons c cs ih =>
    rw [List.mapM_cons]
    refine (hf c).bind fun v hv => (ih.frame (own v)).bind fun vs hvs => pure ?_ (.cons hv hvs)
    exact List.perm_append_comm

theorem mapM_look {γ : Type} {f : γ → Alloc α}
    (hf : ∀ c, Takes base (f c) (fun _ => base) fun _ => True) (cs : List γ) :
    Takes base (cs.mapM f) (fun _ => base) fun _ => True := by
  induction cs with
  | nil => exact pure (.refl base) trivial
  | cons c cs ih =>
    rw [List.mapM_cons]
    exact (hf c).bind fun _ _ => ih.bind fun _ _ => pure (.refl base) trivial

end Takes

namespace Arena

theorem le_alignUp (n : Nat) {align : Nat} (h : 0 < align) : n ≤ alignUp n align := by
  have hd := Nat.div_add_mod (n + (align - 1)) align
  have hm := Nat.mod_lt (n + (align - 1)) h
  rw [Nat.mul_comm] at hd
  rw [alignUp]
  omega

theorem place_eq_ok {a b : Arena} {size align start : Nat}
    (h : a.place size align = .ok (start, b)) :
    start = alignUp a.used (max align 1) ∧ start + size ≤ a.capacity ∧
      b = { a with used := start + size } := by
  rw [place] at h
  split at h
  · cases h
  · dsimp only at h
    split at h
    · next hs =>
      cases h
      exact ⟨rfl, hs, rfl⟩
    · cases h

theorem pushSize_apply (size align : Nat) (a : Arena) :
    pushSize size align a =
      match a.place size align with
      | .ok (start, b) => (.ok start, b)
      | .error e => (.error e, a) := by
  rw [pushSize, bind_apply]
  have hl : (liftM (a.place size align) : Alloc (Nat × Arena)) a = (a.place size align, a) := rfl
  change ((liftM (a.place size align) : Alloc (Nat × Arena)) >>= _) a = _
  rw [bind_apply, hl]
  cases a.place size align <;> rfl

theorem pushFilled_apply (length : Nat) (v : Value) (a : Arena) :
    pushFilled length v a =
      if Word.size 64 ≤ length * valueSize then
        (.error (.outOfMemory (Word.size 64 - 1) a.free), a)
      else
        match a.place (length * valueSize) spanAlignment with
        | .error e => (.error e, a)
        | .ok (start, b) =>
          match Span.make? (start / valueSize) length with
          | none => (.error (.outOfMemory (length * valueSize) b.free), b)
          | some p => (.ok p, { b with store := b.store.fill p v }) := by
  rw [pushFilled]
  beta_reduce
  split
  · rfl
  · rw [bind_apply, pushSize_apply]
    rcases a.place (length * valueSize) spanAlignment with e | ⟨start, b⟩
    · rfl
    · dsimp only
      cases Span.make? (start / valueSize) length <;> rfl

theorem dvd_alignUp (n align : Nat) : align ∣ alignUp n align := Nat.dvd_mul_left _ _

theorem place_onward {a b : Arena} {size align start : Nat}
    (h : a.place size align = .ok (start, b)) : a.Onward b := by
  obtain ⟨hs, hc, rfl⟩ := place_eq_ok h
  have hle := le_alignUp a.used (Nat.lt_of_lt_of_le Nat.zero_lt_one (Nat.le_max_right align 1))
  exact ⟨rfl, by simp only; omega, fun _ => hc, rfl⟩

theorem takes_pushFilled (length : Nat) (v : Value) :
    Takes [] (pushFilled length v) (fun p => [p]) fun p => p.length = length := by
  have hok : ∀ (a : Arena) (p : Span), (pushFilled length v a).1 = .ok p →
      a.used ≤ p.offset * valueSize ∧ p.length = length ∧
        (p.offset + p.length) * valueSize = (pushFilled length v a).2.used := by
    intro a p h
    rw [pushFilled_apply] at h ⊢
    split at h
    · cases h
    · next hb =>
      rw [if_neg hb]
      rcases hp : a.place (length * valueSize) spanAlignment with e | ⟨start, b⟩
      · rw [hp] at h
        cases h
      · rw [hp] at h
        obtain ⟨hs, -, rfl⟩ := place_eq_ok hp
        have hle := le_alignUp a.used (by decide : 0 < max spanAlignment 1)
        have hdvd : valueSize ∣ start :=
          Nat.dvd_trans (by decide : valueSize ∣ max spanAlignment 1) (hs ▸ dvd_alignUp _ _)
        have hdiv := Nat.div_mul_cancel hdvd
        dsimp only at h ⊢
        cases hm : Span.make? (start / valueSize) length with
        | none =>
          rw [hm] at h
          cases h
        | some q =>
          rw [hm] at h
          obtain rfl : q = p := Except.ok.inj h
          have hq := Span.make?_eq_some hm
          subst hq
          refine ⟨by rw [hdiv]; omega, rfl, ?_⟩
          simp only [Nat.add_mul, hdiv]
  refine ⟨fun a => ?_, fun a p h => (hok a p h).2.1, fun lo held a p hp h => ?_⟩
  · rw [pushFilled_apply]
    split
    · exact Onward.refl a
    · rcases hp : a.place (length * valueSize) spanAlignment with e | ⟨start, b⟩
      · exact Onward.refl a
      · have ho := place_onward hp
        dsimp only
        cases Span.make? (start / valueSize) length with
        | none => exact ho
        | some p => exact ⟨ho.capacity_eq, ho.used_le, ho.fits, by simp [ho.slots_eq]⟩
  · obtain ⟨hl, -, hu⟩ := hok a p h
    exact Placed.cons hp hl (Nat.le_of_eq hu)

theorem takes_pushSpan (length : Nat) :
    Takes [] (pushSpan length) (fun p => [p]) fun p => p.length = length :=
  takes_pushFilled length Value.zero

theorem onward_pushSize (size align : Nat) (a : Arena) : a.Onward (pushSize size align a).2 := by
  rw [pushSize_apply]
  rcases hp : a.place size align with e | ⟨start, b⟩
  · exact Onward.refl a
  · exact place_onward hp

theorem takes_pushSize (size align : Nat) :
    Takes [] (pushSize size align) (fun _ => []) fun _ => True :=
  ⟨onward_pushSize size align, fun _ _ _ => trivial,
    fun _ _ a _ hp _ => hp.mono (onward_pushSize size align a).used_le⟩

end Arena

namespace Pipe

def spans (p : Pipe) : List Span := [p.data, p.lower, p.upper]

def limits (p : Pipe) : List Span := [p.lower, p.upper]

theorem data_mem_spans (p : Pipe) : p.data ∈ p.spans := List.mem_cons_self

theorem lower_mem_spans (p : Pipe) : p.lower ∈ p.spans :=
  List.mem_cons_of_mem p.data List.mem_cons_self

theorem upper_mem_spans (p : Pipe) : p.upper ∈ p.spans :=
  List.mem_cons_of_mem p.data (List.mem_cons_of_mem p.lower List.mem_cons_self)

/-- Values and limits are of one length. -/
def Even (p : Pipe) : Prop := p.lower.length = p.length ∧ p.upper.length = p.length

instance (p : Pipe) : Decidable p.Even :=
  inferInstanceAs (Decidable (p.lower.length = p.length ∧ p.upper.length = p.length))

theorem takes_push (length : Nat) (lower upper : Value) :
    Takes [] (push length lower upper) spans fun p => p.Even ∧ p.length = length := by
  refine (Arena.takes_pushFilled length Value.invalid).bind fun data hd => ?_
  refine ((Arena.takes_pushFilled length lower).frame [data]).bind fun low hl => ?_
  refine ((Arena.takes_pushFilled length upper).frame _).bind fun up hu => ?_
  refine Takes.pure ?_ ⟨⟨hl.trans hd.symm, hu.trans hd.symm⟩, hd⟩
  exact List.reverse_perm [data, low, up]

theorem takes_copyLimits {base : List Span} (source target : Pipe) :
    Takes base (copyLimits source target) (fun _ => base) fun _ => True := by
  refine (Takes.values source.lower).bind fun lower _ => ?_
  refine (Takes.assign target.lower lower).bind fun _ _ => ?_
  exact (Takes.values source.upper).bind fun upper _ => Takes.assign target.upper upper

end Pipe

end Readout
