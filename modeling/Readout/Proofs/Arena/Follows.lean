import Readout.Proofs.Arena.Tied

/-!
# Allocations made elsewhere

What was taken from one arena can be taken from another one that holds the same in tied slots,
unless that one is full. The new spans lie in other places, so new ties come to the old ones: above
all slots that were taken before, on both sides. `Follows` states this for a whole computation, so
that it composes along binds.
-/
namespace Readout

/-- Nothing is wrong but that the arena is full. -/
def Error.OutOfMemory (e : Error) : Prop := ∃ size free, e.root = .outOfMemory size free

namespace Arena

/-- The first slot behind all blocks. -/
def edge (a : Arena) : Nat := (a.used + (valueSize - 1)) / valueSize

theorem edge_le_iff {a : Arena} {i : Nat} : a.edge ≤ i ↔ a.used ≤ i * valueSize := by
  rw [edge, valueSize]
  omega

/-- Arenas with the same in tied slots, all of them taken. -/
structure Tied (R : Ties) (a b : Arena) : Prop where
  store : a.store.Tied R b.store
  left : ∀ i j, R i j → i < a.edge
  right : ∀ i j, R i j → j < b.edge
  room : a.capacity = a.store.slots * valueSize
  room' : b.capacity = b.store.slots * valueSize

/-- Blocks lie in the arena, and every slot has an address. -/
structure Roomy (a : Arena) : Prop where
  fits : a.used ≤ a.capacity
  room : a.capacity = a.store.slots * valueSize
  small : a.store.slots < Word.size 32

theorem Roomy.edge_le {a : Arena} (h : a.Roomy) : a.edge ≤ a.store.slots :=
  edge_le_iff.2 (h.room ▸ h.fits)

theorem tied_below {a : Arena} (h : a.Roomy) : Tied (Ties.below a.edge) a a :=
  ⟨⟨Ties.unique_below _, rfl, fun _ _ hij => Nat.lt_of_lt_of_le hij.2 h.edge_le,
      fun _ _ hij => hij.1 ▸ Nat.lt_of_lt_of_le hij.2 h.edge_le,
      fun _ _ hij => congrArg _ hij.1, h.small⟩,
    fun _ _ hij => hij.2, fun _ _ hij => hij.1 ▸ hij.2, h.room, h.room⟩

/-- New ties lie above what was taken before. -/
structure Grown (R R' : Ties) (a b a' b' : Arena) : Prop where
  sub : ∀ i j, R i j → R' i j
  fresh : ∀ i j, R' i j → R i j ∨ a.edge ≤ i ∧ b.edge ≤ j
  left : a.edge ≤ a'.edge
  right : b.edge ≤ b'.edge

theorem Grown.refl (R : Ties) (a b : Arena) : Grown R R a b a b :=
  ⟨fun _ _ => id, fun _ _ => Or.inl, Nat.le_refl _, Nat.le_refl _⟩

theorem Grown.trans {R R' R'' : Ties} {a b a' b' a'' b'' : Arena} (h : Grown R R' a b a' b')
    (k : Grown R' R'' a' b' a'' b'') : Grown R R'' a b a'' b'' := by
  refine ⟨fun i j hij => k.sub i j (h.sub i j hij), fun i j hij => ?_,
    Nat.le_trans h.left k.left, Nat.le_trans h.right k.right⟩
  rcases k.fresh i j hij with hij | ⟨hi, hj⟩
  · exact h.fresh i j hij
  · exact Or.inr ⟨Nat.le_trans h.left hi, Nat.le_trans h.right hj⟩

/-- What a new span is, and what it makes of the arena. -/
structure Pushed (length : Nat) (v : Value) (a b : Arena) (p : Span) : Prop where
  length_eq : p.length = length
  above : a.edge ≤ p.offset
  edge_eq : b.edge = p.offset + length
  within : (p.offset + length) * valueSize ≤ a.capacity
  capacity_eq : b.capacity = a.capacity
  store_eq : b.store = a.store.fill p v

theorem place_span (size : Nat) (a : Arena) :
    (∃ start, a.place size spanAlignment = .ok (start, { a with used := start + size })) ∨
      ∃ free, a.place size spanAlignment = .error (.outOfMemory size free) := by
  rw [place]
  have hpower : isPowerOfTwo (max spanAlignment 1) = true := by decide
  simp only [hpower, Bool.not_true, Bool.false_eq_true, if_false]
  split
  · exact Or.inl ⟨_, rfl⟩
  · exact Or.inr ⟨_, rfl⟩

/-- A new span is taken, or the arena is full. -/
theorem pushFilled_cases {length : Nat} (hlength : length * valueSize < Word.size 64) (v : Value)
    (a : Arena) : (∃ p b, pushFilled length v a = (.ok p, b) ∧ Pushed length v a b p) ∨
      ∃ e b, pushFilled length v a = (.error e, b) ∧ e.OutOfMemory := by
  rw [pushFilled_apply, if_neg (Nat.not_le.2 hlength)]
  rcases a.place_span (length * valueSize) with ⟨start, hp⟩ | ⟨free, hp⟩
  · rw [hp]
    dsimp only
    cases hm : Span.make? (start / valueSize) length with
    | none => exact Or.inr ⟨_, _, rfl, _, _, rfl⟩
    | some p =>
      refine Or.inl ⟨p, _, rfl, ?_⟩
      obtain rfl := Span.make?_eq_some hm
      obtain ⟨hs, hfit, -⟩ := place_eq_ok hp
      have hle := le_alignUp a.used (by decide : 0 < max spanAlignment 1)
      have hdvd : valueSize ∣ start :=
        Nat.dvd_trans (by decide : valueSize ∣ max spanAlignment 1) (hs ▸ dvd_alignUp _ _)
      have hdiv := Nat.div_mul_cancel hdvd
      refine ⟨rfl, edge_le_iff.2 (by rw [hdiv]; omega), ?_, by rw [Nat.add_mul, hdiv]; exact hfit,
        rfl, rfl⟩
      rw [edge]
      simp only [valueSize] at hdiv ⊢
      omega
  · rw [hp]
    exact Or.inr ⟨_, _, rfl, _, _, rfl⟩

/-- The old ties and those of a new span. -/
def withSpan (R : Ties) (p q : Span) : Ties := fun i j =>
  R i j ∨ ∃ k < p.length, i = p.offset + k ∧ j = q.offset + k

variable {R : Ties} {a b a' b' : Arena} {p q : Span} {length : Nat} {v : Value}

theorem Tied.unique_withSpan (h : Tied R a b) (hp : a.edge ≤ p.offset) (hq : b.edge ≤ q.offset) :
    Ties.Unique (withSpan R p q) := by
  rintro i j (hij | ⟨k, hk, rfl, rfl⟩) i' j' (hij' | ⟨k', hk', rfl, rfl⟩)
  · exact h.store.unique hij hij'
  · have hi := h.left i j hij
    have hj := h.right i j hij
    omega
  · have hi := h.left i' j' hij'
    have hj := h.right i' j' hij'
    omega
  · omega

/-- The same values in new spans on both sides. -/
theorem Tied.pushed (h : Tied R a b) (hp : Pushed length v a a' p) (hq : Pushed length v b b' q) :
    Grown R (withSpan R p q) a b a' b' ∧ Tied (withSpan R p q) a' b' ∧
      p.Tied (withSpan R p q) q := by
  have hlen := hp.length_eq
  have hfit : p.offset + length ≤ a.store.slots :=
    Nat.le_of_mul_le_mul_right (h.room ▸ hp.within) (by decide)
  have hfit' : q.offset + length ≤ b.store.slots :=
    Nat.le_of_mul_le_mul_right (h.room' ▸ hq.within) (by decide)
  have habove := hp.above
  have habove' := hq.above
  have hedge := hp.edge_eq
  have hedge' := hq.edge_eq
  have hlen' := hq.length_eq
  refine ⟨⟨fun i j => Or.inl, fun i j hij => hij.imp_right ?_, by omega, by omega⟩,
    ⟨⟨h.unique_withSpan habove habove', ?_, fun i j hij => ?_, fun i j hij => ?_,
      fun i j hij => ?_, ?_⟩, fun i j hij => ?_, fun i j hij => ?_, ?_, ?_⟩,
    ⟨hlen.trans hlen'.symm, fun k hk => Or.inr ⟨k, hk, rfl, rfl⟩⟩⟩
  · rintro ⟨k, hk, rfl, rfl⟩
    omega
  · rw [hp.store_eq, hq.store_eq, Store.slots_fill, Store.slots_fill, h.store.slots_eq]
  · rw [hp.store_eq, Store.slots_fill]
    rcases hij with hij | ⟨k, hk, rfl, rfl⟩
    · exact h.store.left i j hij
    · omega
  · rw [hq.store_eq, Store.slots_fill]
    rcases hij with hij | ⟨k, hk, rfl, rfl⟩
    · exact h.store.right i j hij
    · omega
  · rw [hp.store_eq, hq.store_eq, Store.read_fill, Store.read_fill]
    rcases hij with hij | ⟨k, hk, rfl, rfl⟩
    · have hi : ¬ (i ∈ p ∧ i < a.store.slots) := fun hi =>
        Nat.not_le.2 (h.left i j hij) (Nat.le_trans habove hi.1.1)
      have hj : ¬ (j ∈ q ∧ j < b.store.slots) := fun hj =>
        Nat.not_le.2 (h.right i j hij) (Nat.le_trans habove' hj.1.1)
      rw [if_neg hi, if_neg hj, h.store.read_eq i j hij]
    · rw [if_pos ⟨Span.mem_iff.2 (by omega), by omega⟩,
        if_pos ⟨Span.mem_iff.2 (by omega), by omega⟩]
  · rw [hp.store_eq, Store.slots_fill]
    exact h.store.small
  · rcases hij with hij | ⟨k, hk, rfl, rfl⟩
    · have hi := h.left i j hij
      omega
    · omega
  · rcases hij with hij | ⟨k, hk, rfl, rfl⟩
    · have hj := h.right i j hij
      omega
    · omega
  · rw [hp.capacity_eq, hp.store_eq, Store.slots_fill, h.room]
  · rw [hq.capacity_eq, hq.store_eq, Store.slots_fill, h.room']

end Arena

/-- What has become of two arenas on which the same was done: new ties, and on the right nothing
has changed in the first `n` slots. -/
structure Arena.Remade (R R' : Ties) (n : Nat) (a b a' b' : Arena) : Prop where
  grown : Grown R R' a b a' b'
  tied : Tied R' a' b'
  kept : b.store.AgreeOn (· < n) b'.store

/-- What goes through on the right goes through on the left, with tied results, unless the left
arena is full. On the right, the first `n` slots were taken before. -/
def Follows {α β : Type} (R : Ties) (n : Nat) (x : Alloc α) (y : Alloc β)
    (V : Ties → α → β → Prop) : Prop :=
  ∀ a b w b', Arena.Tied R a b → n ≤ b.edge → y b = (.ok w, b') →
    (∃ v a' R', x a = (.ok v, a') ∧ Arena.Remade R R' n a b a' b' ∧ V R' v w) ∨
      ∃ e a', x a = (.error e, a') ∧ e.OutOfMemory

namespace Follows

variable {α β γ δ : Type} {R : Ties} {n : Nat} {x : Alloc α} {y : Alloc β} {k : α → Alloc γ}
  {l : β → Alloc δ} {V V' : Ties → α → β → Prop} {W : Ties → γ → δ → Prop}

theorem pure {v : α} {w : β} (h : V R v w) : Follows R n (Pure.pure v) (Pure.pure w) V := by
  intro a b w' b' hab _ hy
  obtain ⟨hw, rfl⟩ := Prod.mk.inj hy
  obtain rfl := Except.ok.inj hw
  exact Or.inl ⟨v, a, R, rfl, ⟨.refl R a b, hab, .refl _ _⟩, h⟩

theorem throw {e : Error} : Follows R n x (MonadExcept.throw e : Alloc β) V := by
  intro a b w b' _ _ hy
  cases hy

theorem bind (h : Follows R n x y V)
    (hk : ∀ R' v w, (∀ i j, R i j → R' i j) → V R' v w → Follows R' n (k v) (l w) W) :
    Follows R n (x >>= k) (y >>= l) W := by
  intro a b w b' hab hn hy
  obtain ⟨u, c, hu, hw⟩ := exists_of_bind_apply_eq hy
  rcases h a b u c hab hn hu with ⟨v, a', R', hx, hr, hv⟩ | ⟨e, a', hx, he⟩
  · rcases hk R' v u hr.grown.sub hv a' c w b' hr.tied (Nat.le_trans hn hr.grown.right) hw with
      ⟨v', a'', R'', hx', hr', hv'⟩ | ⟨e, a'', hx', he⟩
    · refine Or.inl ⟨v', a'', R'', ?_, ⟨hr.grown.trans hr'.grown, hr'.tied,
        hr.kept.trans hr'.kept⟩, hv'⟩
      rw [bind_apply, hx]
      exact hx'
    · refine Or.inr ⟨e, a'', ?_, he⟩
      rw [bind_apply, hx]
      exact hx'
  · refine Or.inr ⟨e, a', ?_, he⟩
    rw [bind_apply, hx]

theorem weaken (h : Follows R n x y V) (hV : ∀ R' v w, V R' v w → V' R' v w) :
    Follows R n x y V' := by
  intro a b w b' hab hn hy
  refine (h a b w b' hab hn hy).imp_left ?_
  rintro ⟨v, a', R', hx, hr, hv⟩
  exact ⟨v, a', R', hx, hr, hV R' v w hv⟩

/-- A check that comes out the same on both sides. -/
theorem check {c c' : Prop} [Decidable c] [Decidable c'] {e e' : Error} {f : PUnit → Alloc α}
    {g : PUnit → Alloc β} (hc : c ↔ c') (hf : ¬ c' → Follows R n (f ⟨⟩) (g ⟨⟩) V) :
    Follows R n (if c then MonadExcept.throw e >>= f else f ⟨⟩)
      (if c' then MonadExcept.throw e' >>= g else g ⟨⟩) V := by
  by_cases hc' : c'
  · rw [if_pos hc']
    intro a b w b' _ _ hy
    cases hy
  · rw [if_neg hc', if_neg fun h => hc' (hc.1 h)]
    exact hf hc'

/-- Looking at an arena, or writing to its store, takes nothing. -/
theorem look {f : Arena → α × Arena} {g : Arena → β × Arena} (hf : ∀ a, (f a).2.used = a.used)
    (hg : ∀ a, (g a).2.used = a.used)
    (h : ∀ a b, Arena.Tied R a b → Arena.Tied R (f a).2 (g b).2 ∧
      b.store.AgreeOn (· < n) (g b).2.store ∧ V R (f a).1 (g b).1) :
    Follows R n (fun a => (Except.ok (f a).1, (f a).2) : Alloc α)
      (fun a => (Except.ok (g a).1, (g a).2) : Alloc β) V := by
  intro a b w b' hab _ hy
  obtain ⟨hw, rfl⟩ := Prod.mk.inj hy
  obtain rfl := Except.ok.inj hw
  obtain ⟨htied, hkept, hv⟩ := h a b hab
  refine Or.inl ⟨_, _, R, rfl, ⟨⟨fun _ _ => id, fun _ _ => Or.inl, ?_, ?_⟩, htied, hkept⟩, hv⟩
  · exact Nat.le_of_eq (by rw [Arena.edge, Arena.edge, hf])
  · exact Nat.le_of_eq (by rw [Arena.edge, Arena.edge, hg])

variable {p q : Span}

theorem values (hpq : p.Tied R q) : Follows R n (Arena.values p) (Arena.values q)
    fun R' vs ws => R' = R ∧ vs = ws :=
  look (f := fun a => (a.store.values p, a)) (g := fun a => (a.store.values q, a)) (fun _ => rfl)
    (fun _ => rfl) fun _ _ hab => ⟨hab, .refl _ _, rfl, hab.store.values_eq hpq⟩

theorem value (hpq : p.Tied R q) {i : Nat} (hi : i < p.length) :
    Follows R n (Arena.value p i) (Arena.value q i) fun R' v w => R' = R ∧ v = w :=
  look (f := fun a => (a.store.get p i, a)) (g := fun a => (a.store.get q i, a)) (fun _ => rfl)
    (fun _ => rfl) fun _ _ hab => ⟨hab, .refl _ _, rfl, hab.store.get_eq hpq hi⟩

theorem assign (hpq : p.Tied R q) (hq : n ≤ q.offset) (vs : List Value) :
    Follows R n (Arena.assign p vs) (Arena.assign q vs) fun R' _ _ => R' = R := by
  refine look (f := fun a => (PUnit.unit, { a with store := a.store.assign p vs }))
    (g := fun a => (PUnit.unit, { a with store := a.store.assign q vs })) (fun _ => rfl)
    (fun _ => rfl) fun a b hab =>
      ⟨⟨hab.store.assign hpq vs, hab.left, hab.right, ?_, ?_⟩, ?_, rfl⟩
  · rw [Store.slots_assign, hab.room]
  · rw [Store.slots_assign, hab.room']
  · exact b.store.agree_assign vs fun i hi hlt => Nat.not_lt.2 (Nat.le_trans hq hi.1) hlt

theorem pushFilled (length : Nat) (v : Value) :
    Follows R n (Arena.pushFilled length v) (Arena.pushFilled length v)
      fun R' p q => p.Tied R' q ∧ n ≤ q.offset := by
  intro a b q b' hab hn hy
  by_cases hlength : length * Arena.valueSize < Word.size 64
  · rcases b.pushFilled_cases hlength v with ⟨q', c, hc, hq⟩ | ⟨e, c, hc, -⟩
    · obtain ⟨hqq, rfl⟩ := Prod.mk.inj (hc.symm.trans hy)
      obtain rfl := Except.ok.inj hqq
      refine (a.pushFilled_cases hlength v).imp_left ?_
      rintro ⟨p, a', hx, hp⟩
      obtain ⟨hgrown, htied, hpq⟩ := hab.pushed hp hq
      have habove : n ≤ q'.offset := Nat.le_trans hn hq.above
      refine ⟨p, a', _, hx, ⟨hgrown, htied, ?_⟩, hpq, habove⟩
      rw [hq.store_eq]
      exact b.store.agree_fill v fun i hi hlt => Nat.not_lt.2 (Nat.le_trans habove hi.1) hlt
    · rw [hc] at hy
      cases hy
  · rw [Arena.pushFilled_apply, if_pos (Nat.not_lt.1 hlength)] at hy
    cases hy

theorem pushSpan (length : Nat) :
    Follows R n (Arena.pushSpan length) (Arena.pushSpan length)
      fun R' p q => p.Tied R' q ∧ n ≤ q.offset :=
  pushFilled length Value.zero

/-- A computation for each element of a list. -/
theorem mapM {f : γ → Alloc α} {g : γ → Alloc β}
    (hV : ∀ R R' v w, (∀ i j, R i j → R' i j) → V R v w → V R' v w)
    (hf : ∀ R c, Follows R n (f c) (g c) V) (cs : List γ) :
    Follows R n (cs.mapM f) (cs.mapM g) fun R' vs ws => List.Forall₂ (V R') vs ws := by
  induction cs generalizing R with
  | nil => exact .pure .nil
  | cons c cs ih =>
    rw [List.mapM_cons, List.mapM_cons]
    refine (hf R c).bind fun R' v w _ hv => ih.bind fun R'' vs ws hR hvs => ?_
    exact .pure (.cons (hV R' R'' v w hR hv) hvs)

/-- Looks for each element of two lists that see the same. -/
theorem mapM_look {γ δ : Type} {f : γ → Alloc α} {g : δ → Alloc α} {cs : List γ} {ds : List δ}
    (h : List.Forall₂ (fun c d => Follows R n (f c) (g d) fun R' v w => R' = R ∧ v = w) cs ds) :
    Follows R n (cs.mapM f) (ds.mapM g) fun R' vs ws => R' = R ∧ vs = ws := by
  induction h with
  | nil => exact .pure ⟨rfl, rfl⟩
  | cons hcd _ ih =>
    rw [List.mapM_cons, List.mapM_cons]
    refine hcd.bind ?_
    rintro _ v _ - ⟨rfl, rfl⟩
    refine ih.bind ?_
    rintro _ vs _ - ⟨rfl, rfl⟩
    exact .pure ⟨rfl, rfl⟩

end Follows

end Readout
