import Mathlib.Data.List.Pairwise
import Mathlib.Logic.Function.Iterate
import Readout.Proofs.Operator.Footprint

/-!
# Deferred filling

Bins that are queued are incremented later. As long as nothing looks at the bins this cannot be
told from incrementing them at once: what is missing in a frame with queued bins is, for each slot,
as many increments as there are entries for it in the queue. A step keeps this relation, and a
flush makes up for it. A step queues at most as many bins as its operator can fill.
-/
namespace Readout

namespace Filler

/-- Entries of a queue that increment a slot. -/
def hits (queue : List Span) (slots k : Nat) : Nat :=
  queue.countP fun cell => cell.Hits 0 slots k

theorem hits_cons (cell : Span) (q : List Span) (slots k : Nat) :
    hits (cell :: q) slots k = hits q slots k + if cell.Hits 0 slots k then 1 else 0 := by
  simp [hits, List.countP_cons]

theorem hits_append (q r : List Span) (slots k : Nat) :
    hits (q ++ r) slots k = hits q slots k + hits r slots k := List.countP_append

theorem hits_eq_zero {B : Nat → Prop} {q : List Span} (hq : ∀ cell ∈ q, ∀ i ∈ cell, B i)
    {slots k : Nat} (hk : ¬ B k) : hits q slots k = 0 := by
  rw [hits, List.countP_eq_zero]
  intro cell hc hh
  exact hk (hq cell hc k (of_decide_eq_true hh).mem)

/-- So many increments of a value. -/
def raised (n : Nat) (v : Value) : Value := (fun v => v + Value.one)^[n] v

theorem raised_succ (n : Nat) (v : Value) : raised (n + 1) v = raised n v + Value.one :=
  Function.iterate_succ_apply' _ n v

theorem raised_add_one (n : Nat) (v : Value) : raised n (v + Value.one) = raised (n + 1) v :=
  (Function.iterate_succ_apply _ n v).symm

theorem raised_add (m n : Nat) (v : Value) : raised (m + n) v = raised m (raised n v) :=
  Function.iterate_add_apply _ m n v

theorem slots_flush (f : Filler) (s : Store) : (f.flush s).2.slots = s.slots := by
  obtain ⟨strategy, capacity, queue⟩ := f
  change (queue.foldr (fun cell st => st.increment cell 0) s).slots = s.slots
  induction queue with
  | nil => rfl
  | cons cell q ih => rw [List.foldr_cons, Store.slots_increment, ih]

theorem read_flush (f : Filler) (s : Store) (k : Nat) :
    (f.flush s).2.read k = raised (hits f.queue s.slots k) (s.read k) := by
  obtain ⟨strategy, capacity, queue⟩ := f
  induction queue with
  | nil => rfl
  | cons cell q ih =>
    have hslots := slots_flush ⟨strategy, capacity, q⟩ s
    change ((flush ⟨strategy, capacity, q⟩ s).2.increment cell 0).read k = _
    rw [Store.read_increment, hslots, ih, hits_cons]
    split
    · rw [raised_succ]
    · rfl

theorem read_flush_nil {f : Filler} (hq : f.queue = []) (s : Store) (k : Nat) :
    (f.flush s).2.read k = s.read k := by
  rw [read_flush, hq]
  rfl

theorem flush_agree {P : Nat → Prop} {s t : Store} (f : Filler) (h : s.AgreeOn P t) :
    Store.AgreeOn P (f.flush s).2 (f.flush t).2 := by
  refine ⟨(f.slots_flush s).trans (h.slots_eq.trans (f.slots_flush t).symm), fun i hi => ?_⟩
  rw [read_flush, read_flush, h.slots_eq, h.read_eq i hi]

/-- All cells of the queue lie in a set of slots. -/
def Within (B : Nat → Prop) (f : Filler) : Prop := ∀ cell ∈ f.queue, ∀ i ∈ cell, B i

theorem within_nil {B : Nat → Prop} {f : Filler} (hq : f.queue = []) : f.Within B := by
  intro cell hc
  rw [hq] at hc
  cases hc

theorem flush_frame {B P : Nat → Prop} {f : Filler} (hf : f.Within B) (hP : ∀ i, P i → ¬ B i)
    (s : Store) : s.AgreeOn P (f.flush s).2 := by
  refine ⟨(f.slots_flush s).symm, fun k hk => ?_⟩
  rw [read_flush, hits_eq_zero hf (hP k hk)]
  rfl

theorem Within.increment {B : Nat → Prop} {f : Filler} (hf : f.Within B) (s : Store) {data : Span}
    (hd : ∀ i ∈ data, B i) (bin : Nat) : (f.increment s data bin).1.Within B := by
  rw [Filler.increment]
  cases hc : data.element? bin with
  | none => exact hf
  | some cell =>
    dsimp only
    split
    · exact List.forall_mem_cons.2 ⟨fun i hi => hd i (Span.mem_of_mem_element hc hi), hf⟩
    · exact hf

end Filler

/-- The first frame is the second one with some increments still to come: those of the entries
that its queue has in front of `base`, all of them in the set `B` of slots. -/
structure Frame.Defers (B : Nat → Prop) (base : List Span) (f g : Frame) : Prop where
  queue : ∃ q, f.filler.queue = q ++ base ∧ (∀ cell ∈ q, ∀ i ∈ cell, B i) ∧
    ∀ k, g.store.read k = Filler.raised (Filler.hits q f.store.slots k) (f.store.read k)
  slots_eq : f.store.slots = g.store.slots
  bits_eq : f.bits = g.bits
  volume_eq : f.volume = g.volume
  direct : g.filler.strategy = .direct

namespace Frame.Defers

open Filler

variable {B : Nat → Prop} {base : List Span} {f g : Frame}

theorem agree (h : Defers B base f g) :
    f.AgreeOn ⟨fun i => ¬ B i, fun _ => True, fun _ => True⟩ g := by
  obtain ⟨q, -, hB, hread⟩ := h.queue
  refine ⟨⟨h.slots_eq, fun k hk => ?_⟩, by rw [h.bits_eq], fun i _ => by rw [h.bits_eq], ?_⟩
  · rw [hread, hits_eq_zero hB hk]
    rfl
  · rw [h.volume_eq]
    exact .refl _ _

theorem withStores (h : Defers B base f g) {s t : Store} (hs : f.store.AgreeOn B s)
    (ht : g.store.AgreeOn B t) (hst : s.AgreeOn (fun i => ¬ B i) t) :
    Defers B base { f with store := s } { g with store := t } := by
  obtain ⟨q, hq, hB, hread⟩ := h.queue
  refine ⟨⟨q, hq, hB, fun k => ?_⟩, hst.slots_eq, h.bits_eq, h.volume_eq, h.direct⟩
  change t.read k = raised (hits q s.slots k) (s.read k)
  rw [← hs.slots_eq]
  by_cases hk : B k
  · rw [← ht.read_eq k hk, ← hs.read_eq k hk]
    exact hread k
  · rw [hits_eq_zero hB hk, ← hst.read_eq k hk]
    rfl

theorem increment (h : Defers B base f g) {data : Span} (bin : Nat) (hd : ∀ i ∈ data, B i) :
    Defers B base ((Change.fill data bin).apply f) ((Change.fill data bin).apply g) := by
  obtain ⟨q, hq, hB, hread⟩ := h.queue
  rw [Change.apply, Change.apply, Filler.increment, Filler.increment]
  cases hc : data.element? bin with
  | none => exact h
  | some cell =>
    have hcell : ∀ i ∈ cell, B i := fun i hi => hd i (Span.mem_of_mem_element hc hi)
    have hdirect : ¬ (g.filler.strategy = .batched ∧ g.filler.pending < g.filler.capacity) := by
      rw [h.direct]
      exact fun hb => by cases hb.1
    dsimp only
    rw [if_neg hdirect]
    split
    · -- the entry stands for the increment that the other frame makes
      refine ⟨⟨cell :: q, by simp [hq], ?_, fun k => ?_⟩, by simpa using h.slots_eq, h.bits_eq,
        h.volume_eq, h.direct⟩
      · exact List.forall_mem_cons.2 ⟨hcell, hB⟩
      · rw [Store.read_increment, ← h.slots_eq, hread]
        change _ = raised (hits (cell :: q) f.store.slots k) (f.store.read k)
        rw [hits_cons]
        split
        · rw [raised_succ]
        · rfl
    · refine ⟨⟨q, hq, hB, fun k => ?_⟩, by simpa using h.slots_eq, h.bits_eq, h.volume_eq, h.direct⟩
      simp only [Store.read_increment, Store.slots_increment]
      rw [← h.slots_eq, hread]
      split
      · rw [raised_add_one, raised_succ]
      · rfl

theorem apply (h : Defers B base f g) {c : Change}
    (hc : match c with
      | .fill p _ => ∀ i ∈ p, B i
      | .assign p _ | .invalidate p | .count p _ => ∀ i ∈ p, ¬ B i
      | _ => True) : Defers B base (c.apply f) (c.apply g) := by
  have ha := h.agree.store
  cases c with
  | fill p i => exact h.increment i hc
  | assign p vs =>
    exact h.withStores (f.store.agree_assign vs hc) (g.store.agree_assign vs hc) (ha.assign p vs)
  | invalidate p =>
    exact h.withStores (f.store.agree_fill _ hc) (g.store.agree_fill _ hc) (ha.fill p _)
  | count p i =>
    exact h.withStores (f.store.agree_increment hc) (g.store.agree_increment hc) (ha.increment p i)
  | bit i b => exact ⟨h.queue, h.slots_eq, congrArg (·.set i b) h.bits_eq, h.volume_eq, h.direct⟩
  | write s inputs =>
    refine ⟨h.queue, h.slots_eq, h.bits_eq, ?_, h.direct⟩
    rw [Change.apply, Change.apply, h.volume_eq]

theorem applyAll (h : Defers B base f g) {cs : List Change}
    (hc : ∀ c ∈ cs, match c with
      | .fill p _ => ∀ i ∈ p, B i
      | .assign p _ | .invalidate p | .count p _ => ∀ i ∈ p, ¬ B i
      | _ => True) : Defers B base (Change.applyAll cs f) (Change.applyAll cs g) := by
  induction cs generalizing f g with
  | nil => exact h
  | cons c cs ih =>
    obtain ⟨hc, hcs⟩ := List.forall_mem_cons.1 hc
    exact ih (h.apply hc) hcs

/-- A flush catches up, and goes on with the entries that were queued before. -/
theorem read_flush (h : Defers B base f g) (k : Nat) : (f.filler.flush f.store).2.read k =
    raised (hits base f.store.slots k) (g.store.read k) := by
  obtain ⟨q, hq, -, hread⟩ := h.queue
  rw [Filler.read_flush, hq, hits_append, Nat.add_comm, raised_add, hread]

end Frame.Defers

namespace Operator

variable {B : Nat → Prop} {base : List Span} {f g : Frame} {op : Operator}

/-- The bins of an operator belong to a set of slots, and nothing else that it reads or writes
does. -/
structure Bins (B : Nat → Prop) (op : Operator) : Prop where
  bins : ∀ p ∈ op.kind.bins, ∀ i ∈ p, B i
  reads : ∀ i, op.reads.slots i → ¬ B i
  written : ∀ p ∈ op.written, ∀ i ∈ p, ¬ B i

theorem Bins.step (hop : op.Bins B) (h : f.Defers B base g) :
    (op.step f).1 = (op.step g).1 ∧ (op.step f).2.Defers B base (op.step g).2 := by
  obtain ⟨k, cs, hr⟩ := op.exists_response f
  have hg : f.AgreeOn op.reads g :=
    h.agree.mono hop.reads (fun _ _ => trivial) fun _ _ => trivial
  rw [hr.step_eq f (.refl _ f), hr.step_eq g hg.indistinct]
  refine ⟨rfl, h.applyAll fun c hc => ?_⟩
  have hm := hr.makes c hc
  cases c with
  | fill p i => exact hop.bins p hm
  | assign p vs => exact hop.written p hm
  | invalidate p => exact hop.written p hm
  | count p j => exact hop.written p hm
  | bit i b => trivial
  | write s inputs => trivial

end Operator

namespace Filler

theorem increment_spec (f : Filler) (s : Store) (data : Span) (bin : Nat) :
    (f.increment s data bin).1.strategy = f.strategy ∧
      (f.increment s data bin).1.capacity = f.capacity ∧
        (f.increment s data bin).1.pending ≤ f.pending + 1 := by
  rw [increment]
  cases data.element? bin with
  | none => exact ⟨rfl, rfl, Nat.le_succ _⟩
  | some cell =>
    dsimp only
    split
    · exact ⟨rfl, rfl, Nat.le_refl _⟩
    · exact ⟨rfl, rfl, Nat.le_succ _⟩

end Filler

namespace Change

theorem filler_applyAll_spec (cs : List Change) (f : Frame) :
    (applyAll cs f).filler.strategy = f.filler.strategy ∧
      (applyAll cs f).filler.capacity = f.filler.capacity ∧
        (applyAll cs f).filler.pending ≤ f.filler.pending + cs.countP isFill := by
  induction cs generalizing f with
  | nil => exact ⟨rfl, rfl, Nat.le_refl _⟩
  | cons c cs ih =>
    obtain ⟨hs, hc, hp⟩ := ih (c.apply f)
    rw [applyAll_cons, List.countP_cons]
    cases c with
    | fill p i =>
      obtain ⟨hs', hc', hp'⟩ := f.filler.increment_spec f.store p i
      refine ⟨hs.trans hs', hc.trans hc', ?_⟩
      change _ ≤ _ + (_ + 1)
      have hap : (Change.apply f (.fill p i)).filler = (f.filler.increment f.store p i).1 := rfl
      rw [hap] at hp
      omega
    | _ => exact ⟨hs, hc, hp⟩

end Change

/-- What a step queues are bins of its operator. -/
theorem Operator.within_step {B : Nat → Prop} {op : Operator} {f : Frame} (hf : f.filler.Within B)
    (hop : ∀ p ∈ op.kind.bins, ∀ i ∈ p, B i) : (op.step f).2.filler.Within B := by
  obtain ⟨k, cs, hr⟩ := op.exists_response f
  rw [hr.step_eq f (.refl _ f)]
  have hall : ∀ (cs : List Change) (g : Frame), (∀ c ∈ cs, op.Makes c) → g.filler.Within B →
      (Change.applyAll cs g).filler.Within B := by
    intro cs
    induction cs with
    | nil => exact fun g _ hg => hg
    | cons c cs ih =>
      intro g hm hg
      obtain ⟨hc, hcs⟩ := List.forall_mem_cons.1 hm
      refine ih _ hcs ?_
      cases c with
      | fill p i => exact hg.increment g.store (hop p hc) i
      | _ => exact hg
  exact hall cs f hr.makes hf

theorem Operator.filler_step_spec (op : Operator) (f : Frame) :
    (op.step f).2.filler.strategy = f.filler.strategy ∧
      (op.step f).2.filler.capacity = f.filler.capacity ∧
        (op.step f).2.filler.pending ≤ f.filler.pending + op.kind.maxFills := by
  obtain ⟨k, cs, hr⟩ := op.exists_response f
  obtain ⟨hs, hc, hp⟩ := Change.filler_applyAll_spec cs f
  rw [hr.step_eq f (.refl _ f)]
  exact ⟨hs, hc, Nat.le_trans hp (Nat.add_le_add_left hr.fills _)⟩

/-- What operators of one arena read and write otherwise is apart from all of their bins. -/
theorem Laid.bins {ops : List Operator} (h : Laid ops) :
    ∀ op ∈ ops, op.Bins fun i => ∃ a ∈ ops, ∃ p ∈ a.kind.bins, i ∈ p := by
  intro op hop
  have howned := List.pairwise_flatMap.1 h.apart
  have hplain : ∀ q ∈ op.outputs.flatMap Pipe.spans ++ op.kind.memory, ∀ i ∈ q,
      ¬ ∃ a ∈ ops, ∃ p ∈ a.kind.bins, i ∈ p := by
    rintro q hq i hiq ⟨a, ha, p, hp, hip⟩
    by_cases hao : a = op
    · subst hao
      exact (List.pairwise_append.1 (howned.1 a ha)).2.2 q hq p hp i hiq hip
    · have hsymm : Std.Symm fun a b : Operator => ∀ x ∈ a.owned, ∀ y ∈ b.owned, x.Apart y :=
        ⟨fun _ _ k y hy x hx => (k x hx y hy).symm⟩
      exact howned.2.forall hop ha (Ne.symm hao) q (List.mem_append_left _ hq) p
        (List.mem_append_right _ hp) i hiq hip
  refine ⟨fun p hp i hi => ⟨op, hop, p, hp, hi⟩, ?_,
    fun p hp => hplain p (op.written_subset hp)⟩
  rintro i ⟨q, hq, hiq⟩
  rcases List.mem_append.1 hq with hq | hq
  · rintro ⟨a, ha, p, hp, hip⟩
    obtain ⟨v, hv, hq⟩ := List.mem_flatMap.1 hq
    exact h.hidden a ha op hop p (List.mem_append_right _ hp) v hv q hq i hip hiq
  · exact hplain q (op.recalled_subset hq) i hiq

end Readout
