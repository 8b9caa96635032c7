import Readout.Operator.Step
import Readout.Proofs.Export.Files
import Readout.Proofs.Operator.Layout

/-!
# Changes of a frame

Whatever a step does to its frame is a sequence of changes of few kinds. A change treats frames
alike that agree on a region, and it leaves a region alone that it does not reach. Both are shown
here for a single change; what is shown of steps follows from the changes that they make.
-/
namespace Readout

inductive Change
  | assign (p : Span) (vs : List Value)
  | invalidate (p : Span)
  | bit (i : Nat) (b : Bool)
  /-- Increments a bin, now or later. -/
  | fill (data : Span) (bin : Nat)
  | count (p : Span) (i : Nat)
  | write (s : ExportSink) (inputs : List (List Value))

/-- A part of a frame: slots of its store, condition bits and files. -/
structure Region where
  slots : Nat → Prop
  bits : Nat → Prop
  files : List String → Prop

namespace Region

/-- All slots and bits, and a set of files. -/
def whole (files : List String → Prop) : Region := ⟨fun _ => True, fun _ => True, files⟩

end Region

namespace Frame

/-- The same contents in a region, and the same sorts of files everywhere. -/
structure AgreeOn (R : Region) (f g : Frame) : Prop where
  store : Store.AgreeOn R.slots f.store g.store
  length_eq : f.bits.length = g.bits.length
  bits : ∀ i, R.bits i → f.bits.test i = g.bits.test i
  volume : Volume.AgreeOn R.files f.volume g.volume

namespace AgreeOn

variable {R R' : Region} {f g k : Frame}

theorem refl (R : Region) (f : Frame) : AgreeOn R f f :=
  ⟨.refl _ _, rfl, fun _ _ => rfl, .refl _ _⟩

theorem symm (h : AgreeOn R f g) : AgreeOn R g f :=
  ⟨h.store.symm, h.length_eq.symm, fun i hi => (h.bits i hi).symm, h.volume.symm⟩

theorem trans (h : AgreeOn R f g) (h' : AgreeOn R g k) : AgreeOn R f k :=
  ⟨h.store.trans h'.store, h.length_eq.trans h'.length_eq,
    fun i hi => (h.bits i hi).trans (h'.bits i hi), h.volume.trans h'.volume⟩

theorem mono (h : AgreeOn R f g) (hs : ∀ i, R'.slots i → R.slots i) (hb : ∀ i, R'.bits i → R.bits i)
    (hf : ∀ p, R'.files p → R.files p) : AgreeOn R' f g :=
  ⟨h.store.mono hs, h.length_eq, fun i hi => h.bits i (hb i hi), h.volume.mono hf⟩

/-- Frames that agree on two regions agree on everything that belongs to one of them. -/
theorem join {Q : Region} (h : AgreeOn R f g) (h' : AgreeOn R' f g)
    (hs : ∀ i, Q.slots i → R.slots i ∨ R'.slots i) (hb : ∀ i, Q.bits i → R.bits i ∨ R'.bits i)
    (hf : ∀ p, Q.files p → R.files p ∨ R'.files p) : AgreeOn Q f g := by
  refine ⟨⟨h.store.slots_eq, fun i hi => ?_⟩, h.length_eq, fun i hi => ?_,
    ⟨h.volume.current, h.volume.sorts, fun p hp => ?_⟩⟩
  · exact (hs i hi).elim (h.store.read_eq i) (h'.store.read_eq i)
  · exact (hb i hi).elim (h.bits i) (h'.bits i)
  · exact (hf p hp).elim (h.volume.files p) (h'.volume.files p)

end AgreeOn

end Frame

namespace Filler

theorem agree_increment {P : Nat → Prop} {s t : Store} (h : s.AgreeOn P t) (q : Filler)
    (data : Span) (bin : Nat) :
    (q.increment s data bin).1 = (q.increment t data bin).1 ∧
      Store.AgreeOn P (q.increment s data bin).2 (q.increment t data bin).2 := by
  rw [increment, increment]
  cases data.element? bin with
  | none => exact ⟨rfl, h⟩
  | some cell =>
    dsimp only
    split
    · exact ⟨rfl, h⟩
    · exact ⟨rfl, h.increment cell 0⟩

theorem increment_direct {q : Filler} (hq : q.strategy = .direct) (s : Store) (data : Span)
    (bin : Nat) : (q.increment s data bin).1 = q := by
  rw [increment]
  cases data.element? bin with
  | none => rfl
  | some cell => simp [hq]

theorem increment_frame {P : Nat → Prop} (q : Filler) (s : Store) {data : Span} (bin : Nat)
    (hd : ∀ i ∈ data, ¬ P i) : s.AgreeOn P (q.increment s data bin).2 := by
  rw [increment]
  cases hc : data.element? bin with
  | none => exact .refl P s
  | some cell =>
    dsimp only
    split
    · exact .refl P s
    · exact s.agree_increment fun i hi => hd i (Span.mem_of_mem_element hc hi)

end Filler

namespace Change

def apply (f : Frame) : Change → Frame
  | assign p vs => { f with store := f.store.assign p vs }
  | invalidate p => { f with store := f.store.invalidate p }
  | bit i b => { f with bits := f.bits.set i b }
  | fill data bin =>
    { f with
      filler := (f.filler.increment f.store data bin).1
      store := (f.filler.increment f.store data bin).2 }
  | count p i => { f with store := f.store.increment p i }
  | write s inputs => { f with volume := (s.step inputs f.volume).2 }

def applyAll (cs : List Change) (f : Frame) : Frame := cs.foldl apply f

/-- The change reaches nothing in the region. -/
def Spares (R : Region) : Change → Prop
  | assign p _ | invalidate p | fill p _ | count p _ => ∀ i ∈ p, ¬ R.slots i
  | bit i _ => ¬ R.bits i
  | write s _ => ∀ h ∈ s.handle?, ¬ R.files h.place

/-- The change overwrites the whole span. -/
def Covers (p : Span) : Change → Prop
  | assign q vs => q = p ∧ p.length ≤ vs.length
  | invalidate q => q = p
  | _ => False

def isFill : Change → Bool
  | fill .. => true
  | _ => false

variable {R : Region} {f g : Frame} {c : Change} {cs : List Change}

@[simp] theorem applyAll_cons (c : Change) (cs : List Change) (f : Frame) :
    applyAll (c :: cs) f = applyAll cs (c.apply f) := rfl

theorem applyAll_append (cs ds : List Change) (f : Frame) :
    applyAll (cs ++ ds) f = applyAll ds (applyAll cs f) := List.foldl_append

theorem test_set (b : ConditionBits) (i j : Nat) (v : Bool) :
    (b.set i v).test j = if i = j ∧ i < b.length then v else b.test j := by
  by_cases hi : i < b.length
  · rw [b.test_set i j v hi]
    simp [hi]
  · have hl : b.bits.length ≤ i := Nat.not_lt.1 hi
    rw [if_neg fun h => hi h.2, ConditionBits.set, List.set_eq_of_length_le hl]

theorem agree_apply (h : f.AgreeOn R g) (hq : c.isFill = true → f.filler = g.filler) :
    (c.apply f).AgreeOn R (c.apply g) := by
  obtain ⟨hstore, hlen, hbits, hvol⟩ := h
  cases c with
  | assign p vs => exact ⟨hstore.assign p vs, hlen, hbits, hvol⟩
  | invalidate p => exact ⟨hstore.fill p _, hlen, hbits, hvol⟩
  | bit i b =>
    refine ⟨hstore, ?_, fun j hj => ?_, hvol⟩
    · simp [apply, ConditionBits.length_set, hlen]
    · simp only [apply, test_set, hlen, hbits j hj]
  | fill data bin =>
    refine ⟨?_, hlen, hbits, hvol⟩
    rw [apply, apply, ← hq rfl]
    exact (f.filler.agree_increment hstore data bin).2
  | count p i => exact ⟨hstore.increment p i, hlen, hbits, hvol⟩
  | write s inputs => exact ⟨hstore, hlen, hbits, (s.step_agree hvol inputs).2⟩

theorem filler_apply_eq (h : f.AgreeOn R g) (hq : f.filler = g.filler) (c : Change) :
    (c.apply f).filler = (c.apply g).filler := by
  cases c with
  | fill data bin =>
    rw [apply, apply, ← hq]
    exact (f.filler.agree_increment h.store data bin).1
  | _ => exact hq

theorem agree_applyAll (h : f.AgreeOn R g) (hq : f.filler = g.filler) (cs : List Change) :
    (applyAll cs f).AgreeOn R (applyAll cs g) ∧
      (applyAll cs f).filler = (applyAll cs g).filler := by
  induction cs generalizing f g with
  | nil => exact ⟨h, hq⟩
  | cons c cs ih => exact ih (agree_apply h fun _ => hq) (filler_apply_eq h hq c)

theorem apply_frame (f : Frame) (hc : c.Spares R) : f.AgreeOn R (c.apply f) := by
  cases c with
  | assign p vs => exact ⟨f.store.agree_assign vs hc, rfl, fun _ _ => rfl, .refl _ _⟩
  | invalidate p => exact ⟨f.store.agree_fill _ hc, rfl, fun _ _ => rfl, .refl _ _⟩
  | bit i b =>
    refine ⟨.refl _ _, (f.bits.length_set i b).symm, fun j hj => ?_, .refl _ _⟩
    rw [apply, test_set, if_neg fun h : i = j ∧ _ => hc (h.1 ▸ hj)]
  | fill data bin =>
    exact ⟨f.filler.increment_frame f.store bin hc, rfl, fun _ _ => rfl, .refl _ _⟩
  | count p i => exact ⟨f.store.agree_increment hc, rfl, fun _ _ => rfl, .refl _ _⟩
  | write s inputs => exact ⟨.refl _ _, rfl, fun _ _ => rfl, s.agree_step inputs f.volume hc⟩

theorem applyAll_frame (f : Frame) (hc : ∀ c ∈ cs, c.Spares R) : f.AgreeOn R (applyAll cs f) := by
  induction cs generalizing f with
  | nil => exact .refl R f
  | cons c cs ih =>
    obtain ⟨hc, hcs⟩ := List.forall_mem_cons.1 hc
    exact (apply_frame f hc).trans (ih (c.apply f) hcs)

/-- All changes but those of bins treat a store without regard to what else there is. -/
theorem store_apply {P : Nat → Prop} (h : f.store.AgreeOn P g.store) (hc : c.isFill = false) :
    (c.apply f).store.AgreeOn P (c.apply g).store := by
  cases c with
  | assign p vs => exact h.assign p vs
  | invalidate p => exact h.fill p _
  | count p i => exact h.increment p i
  | fill data bin => cases hc
  | bit i b => exact h
  | write s inputs => exact h

theorem store_applyAll {P : Nat → Prop} (h : f.store.AgreeOn P g.store)
    (hcs : ∀ c ∈ cs, c.isFill = false) :
    (applyAll cs f).store.AgreeOn P (applyAll cs g).store := by
  induction cs generalizing f g with
  | nil => exact h
  | cons c cs ih =>
    obtain ⟨hc, hcs⟩ := List.forall_mem_cons.1 hcs
    exact ih (store_apply h hc) hcs

theorem bits_applyAll (h : f.bits = g.bits) (cs : List Change) :
    (applyAll cs f).bits = (applyAll cs g).bits := by
  induction cs generalizing f g with
  | nil => exact h
  | cons c cs ih =>
    refine ih ?_
    cases c with
    | bit i b => exact congrArg (fun bits => bits.set i b) h
    | _ => exact h

theorem slots_applyAll (cs : List Change) (f : Frame) :
    (applyAll cs f).store.slots = f.store.slots :=
  (applyAll_frame (R := ⟨fun _ => False, fun _ => False, fun _ => False⟩) f fun c _ => by
    cases c <;> simp [Spares]).store.slots_eq.symm

/-- A span that is overwritten on the way holds the same at the end, whatever it held before. -/
theorem store_applyAll_covers {P : Nat → Prop} (h : f.store.AgreeOn P g.store)
    (hcs : ∀ c ∈ cs, c.isFill = false) {p : Span} (hp : p.stop ≤ f.store.slots)
    (hcov : ∃ c ∈ cs, c.Covers p) :
    (applyAll cs f).store.AgreeOn (fun i => P i ∨ i ∈ p) (applyAll cs g).store := by
  obtain ⟨c, hc, hcov⟩ := hcov
  obtain ⟨before, behind, rfl⟩ := List.append_of_mem hc
  obtain ⟨hbefore, hrest⟩ := List.forall_mem_append.1 hcs
  have hp' : p.stop ≤ (applyAll before f).store.slots := by rwa [slots_applyAll]
  have hfront := store_applyAll h hbefore
  rw [applyAll_append, applyAll_append, applyAll_cons, applyAll_cons]
  refine store_applyAll ?_ (List.forall_mem_cons.1 hrest).2
  cases c with
  | assign q vs =>
    obtain ⟨rfl, hv⟩ := hcov
    exact hfront.assign_covers hp' hv
  | invalidate q =>
    obtain rfl : q = p := hcov
    exact hfront.fill_covers _ hp'
  | _ => cases hcov

theorem filler_applyAll (hq : f.filler.strategy = .direct) (cs : List Change) :
    (applyAll cs f).filler = f.filler := by
  induction cs generalizing f with
  | nil => rfl
  | cons c cs ih =>
    have hc : (c.apply f).filler = f.filler := by
      cases c with
      | fill data bin => exact f.filler.increment_direct hq f.store data bin
      | _ => rfl
    rw [applyAll_cons, ih (hc.symm ▸ hq), hc]

end Change

end Readout
