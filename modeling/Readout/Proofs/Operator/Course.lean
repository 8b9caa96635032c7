import Readout.Proofs.Operator.Figures

/-!
# The course of an operator

From the beginning of a run on, an operator steps whenever its event ends, with its gate open or
closed, and takes notice of ticks. These moments, in order, are all that a run is for it: `Course`
lists the states that they lead to, while everything that the operator does not own, but for the
limits of the pipes that it reads, may change in between.
-/
namespace Readout

inductive Moment
  /-- A step, with what the inputs held. An operator whose gate is closed does not compute. -/
  | step (isOpen : Bool) (ins : List (List Value))
  | tick
deriving DecidableEq

namespace Moment

/-- What element `i` of the first input held, if the operator computed. -/
def reading? (i : Nat) : Moment → Option Value
  | step true ins => some ((ins.headD []).getD i Value.invalid)
  | _ => none

/-- The readings of element `i` at the steps that computed. -/
def readings (i : Nat) (ms : List Moment) : List Value := ms.filterMap (reading? i)

/-- The operator computed, and what it read was valid. -/
def finds (i : Nat) (m : Moment) : Bool := (m.reading? i).any Value.isValid

variable {i : Nat} {ms : List Moment}

theorem readings_append (ns : List Moment) :
    readings i (ms ++ ns) = readings i ms ++ readings i ns :=
  List.filterMap_append

theorem readings_open (ins : List (List Value)) :
    readings i (ms ++ [step true ins]) =
      readings i ms ++ [(ins.headD []).getD i Value.invalid] :=
  readings_append _

theorem readings_ticks {ticks : List Moment} (h : ∀ m ∈ ticks, m = tick) :
    readings i (ms ++ ticks) = readings i ms := by
  have hnone : readings i ticks = [] := List.filterMap_eq_nil_iff.2 fun m hm => by
    rw [h m hm]
    rfl
  rw [readings_append, hnone, List.append_nil]

theorem foldl_readings {α : Type} (next : α → Value → α) (init : α) :
    (readings i ms).foldl next init =
      ms.foldl (fun a m => (m.reading? i).elim a (next a)) init := by
  rw [readings, List.foldl_filterMap]
  congr
  funext a m
  cases m.reading? i <;> rfl

/-- The last moment of a list is the one in its middle, or the last one behind that. -/
theorem last_cases {ns ticks : List Moment} {m n : Moment} (h : ns ++ [m] = ms ++ n :: ticks) :
    ns = ms ∧ m = n ∨ ∃ rest, ticks = rest ++ [m] ∧ ns = ms ++ n :: rest := by
  rcases List.eq_nil_or_concat' ticks with rfl | ⟨rest, l, rfl⟩
  · obtain ⟨hfront, hlast⟩ := List.append_inj' h rfl
    exact Or.inl ⟨hfront, List.singleton_inj.1 hlast⟩
  · rw [← List.cons_append, ← List.append_assoc] at h
    obtain ⟨hfront, hlast⟩ := List.append_inj' h rfl
    exact Or.inr ⟨rest, by rw [List.singleton_inj.1 hlast], hfront⟩

end Moment

/-- The run leaves no traces in the operator itself. -/
def Kind.Fixed (k : Kind) : Prop := ∀ l : Kind, l.resting = k.resting → l = k

theorem Kind.fixed_keepPrevious (previous : Span) (keepValid : Bool) :
    (keepPrevious previous keepValid).Fixed := by
  intro l hl
  cases l with
  | keepPrevious => exact hl
  | _ => cases hl

theorem Kind.fixed_scalerOverflow (last overflows : Span) :
    (scalerOverflow last overflows).Fixed := by
  intro l hl
  cases l with
  | scalerOverflow => exact hl
  | _ => cases hl

namespace Operator

/-- The spans that an operator owns and the limits of the pipes that it reads. -/
def ground (op : Operator) : List Span := op.owned ++ op.inputs.flatMap Pipe.limits

/-- The states of an operator and of the store around it, with the moments since the run began. -/
inductive Course (op : Operator) : List Moment → Operator → Store → Prop
  | begun (f : Frame) (h : op.InRange f.store.slots) :
    Course op [] (op.beginRun f).1 (op.beginRun f).2.store
  | step {ms : List Moment} {op' : Operator} (f : Frame) (h : Course op ms op' f.store) :
    Course op (ms ++ [.step (op'.isOpen f.bits) (op'.inputValues f)]) (op'.step f).1
      (op'.step f).2.store
  | tick {ms : List Moment} {op' : Operator} {s : Store} (h : Course op ms op' s) :
    Course op (ms ++ [.tick]) (op'.tick s) s
  | endRun {ms : List Moment} {op' : Operator} {s : Store} (f : Frame) (h : Course op ms op' s) :
    Course op ms (op'.endRun f).1 s
  | others {ms : List Moment} {op' : Operator} {s t : Store} (h : Course op ms op' s)
    (hsame : s.AgreeOn (fun i => ∃ p ∈ op.ground, i ∈ p) t) : Course op ms op' t

variable {op op' : Operator} {ms : List Moment} {s t : Store} {f : Frame}

theorem ground_of_resting (hr : op'.resting = op.resting) : op'.ground = op.ground := by
  have hground : ∀ k : Operator, k.resting.ground = k.ground := fun k => by
    rw [ground, owned_resting]
    rfl
  rw [← hground, hr, hground]

theorem bins_of_resting (hr : op'.resting = op.resting) : op'.kind.bins = op.kind.bins := by
  rw [← Kind.bins_resting, ← kind_resting, hr, kind_resting, Kind.bins_resting]

theorem owned_subset_ground (op : Operator) : op.owned ⊆ op.ground :=
  List.subset_append_left _ _

theorem output_mem_ground {o : Pipe} (ho : o ∈ op.outputs) : o.data ∈ op.ground :=
  op.owned_subset_ground (InRange.data_mem_owned ho)

theorem memory_mem_ground {p : Span} (hp : p ∈ op.kind.memory) : p ∈ op.ground :=
  op.owned_subset_ground (InRange.memory_mem_owned hp)

theorem limits_mem_ground {v : Pipe} (hv : v ∈ op.inputs) {p : Span} (hp : p ∈ v.limits) :
    p ∈ op.ground :=
  List.mem_append_right _ (List.mem_flatMap.2 ⟨v, hv, hp⟩)

theorem resting_tick (op : Operator) (s : Store) : (op.tick s).resting = op.resting :=
  phase_tick.resting op ⟨s, ⟨[]⟩, ⟨.direct, 0, []⟩, .fresh⟩

/-- An operator stays what it is. -/
theorem Course.spec (h : Course op ms op' s) : op'.resting = op.resting ∧ op'.InRange s.slots := by
  induction h with
  | begun f hr =>
    have hrest := phase_beginRun.resting op f
    exact ⟨hrest, phase_beginRun.slots op f ▸ hr.of_resting hrest⟩
  | @step ms k f _ ih =>
    have hrest := k.resting_step f
    exact ⟨hrest.trans ih.1, k.slots_step f ▸ ih.2.of_resting hrest⟩
  | @tick ms k s _ ih =>
    have hrest := k.resting_tick s
    exact ⟨hrest.trans ih.1, ih.2.of_resting hrest⟩
  | @endRun ms k s f _ ih =>
    have hrest := phase_endRun.resting k f
    exact ⟨hrest.trans ih.1, ih.2.of_resting hrest⟩
  | others _ hsame ih => exact ⟨ih.1, hsame.slots_eq ▸ ih.2⟩

/-- What is seen of an operator and its store goes through a run as a machine does that is driven by
the moments alone. -/
structure Tracks {α : Type} (op : Operator) (see : Operator → Store → α) (init : α)
    (next : α → Moment → α) : Prop where
  begun : ∀ f : Frame, op.InRange f.store.slots →
    see (op.beginRun f).1 (op.beginRun f).2.store = init
  step : ∀ (k : Operator) (f : Frame), k.resting = op.resting → k.InRange f.store.slots →
    see (k.step f).1 (k.step f).2.store =
      next (see k f.store) (.step (k.isOpen f.bits) (k.inputValues f))
  tick : ∀ (k : Operator) (s : Store), k.resting = op.resting → k.InRange s.slots →
    see (k.tick s) s = next (see k s) .tick
  endRun : ∀ (k : Operator) (f : Frame) (s : Store), k.resting = op.resting →
    see (k.endRun f).1 s = see k s
  others : ∀ (k : Operator) (s t : Store), k.resting = op.resting →
    s.AgreeOn (fun i => ∃ p ∈ op.ground, i ∈ p) t → see k s = see k t

theorem Tracks.see_eq {α : Type} {see : Operator → Store → α} {init : α} {next : α → Moment → α}
    (ht : op.Tracks see init next) (h : Course op ms op' s) : see op' s = ms.foldl next init := by
  induction h with
  | begun f hr => exact ht.begun f hr
  | @step ms k f h ih =>
    rw [List.foldl_append, ← ih]
    exact ht.step k f h.spec.1 h.spec.2
  | @tick ms k s h ih =>
    rw [List.foldl_append, ← ih]
    exact ht.tick k s h.spec.1 h.spec.2
  | @endRun ms k s f h ih => exact (ht.endRun k f s h.spec.1).trans ih
  | @others ms k s t h hsame ih => exact (ht.others k s t h.spec.1 hsame).symm.trans ih

theorem eq_of_resting (hr : op'.resting = op.resting) (hk : op.kind.Fixed) : op' = op := by
  have hkind : op'.kind = op.kind := hk _ (congrArg kind hr)
  have hinputs : op'.inputs = op.inputs := (congrArg inputs hr :)
  have houtputs : op'.outputs = op.outputs := (congrArg outputs hr :)
  have hgate : op'.gate = op.gate := (congrArg gate hr :)
  obtain ⟨inputs, outputs, gate, kind⟩ := op
  obtain ⟨inputs', outputs', gate', kind'⟩ := op'
  subst hkind hinputs houtputs hgate
  rfl

/-- What an operator of a fixed kind remembers is made of its readings, one after the other. -/
theorem Course.memory_eq {α : Type} {init : α} {next : α → Value → α} {i : Nat}
    (h : Course op ms op' s) (hk : op.kind.Fixed) (see : Store → α)
    (hsee : ∀ s t : Store, s.AgreeOn (fun j => ∃ p ∈ op.kind.memory, j ∈ p) t → see s = see t)
    (hbegun : ∀ f : Frame, op.InRange f.store.slots → see (op.beginRun f).2.store = init)
    (hnext : ∀ f : Frame, op.InRange f.store.slots → see (op.compute f).2.store =
      next (see f.store) (((op.inputValues f).headD []).getD i Value.invalid)) :
    see s = (Moment.readings i ms).foldl next init := by
  have htracks : op.Tracks (fun _ s => see s) init fun a m => (m.reading? i).elim a (next a) := by
    refine ⟨hbegun, fun k f hr hin => ?_, fun _ _ _ _ => rfl, fun _ _ _ _ => rfl,
      fun _ s t _ hsame => hsee s t (hsame.mono ?_)⟩
    · obtain rfl := eq_of_resting hr hk
      cases hopen : k.isOpen f.bits with
      | true =>
        rw [Operator.step, if_pos hopen]
        exact hnext f hin
      | false =>
        rw [step_closed hopen]
        refine (hsee _ _ ((agree_invalidate hin.apart f).store.mono ?_)).symm
        rintro j ⟨p, hp, hj⟩
        exact ⟨p, List.mem_append_left _ hp, hj⟩
    · rintro j ⟨p, hp, hj⟩
      exact ⟨p, memory_mem_ground hp, hj⟩
  rw [Moment.foldl_readings]
  exact htracks.see_eq h

/-- A step writes nothing of what the operator reads. -/
theorem InRange.get_input_step (h : InRange f.store.slots op) {v : Pipe} (hv : v ∈ op.inputs)
    {p : Span} (hp : p ∈ v.spans) {i : Nat} (hi : i < p.length) :
    (op.step f).2.store.get p i = f.store.get p i := by
  have hbeyond : Region.Beyond ⟨(· ∈ p), fun _ => False, fun _ => False⟩ op := by
    refine ⟨fun q hq j hjq hjp => ?_, fun _ _ => id, fun _ _ => id⟩
    exact h.input_apart hv hp (op.changing_subset_owned hq) j hjp hjq
  exact ((step_frame hbeyond f).store.get_eq
    ⟨Nat.le_add_right _ _, Nat.add_lt_add_left hi _⟩).symm

/-- What an operator left at its last step is there until it steps again. -/
theorem Course.last_step {ns ticks : List Moment} {isOpen : Bool} {ins : List (List Value)}
    (h : Course op ns op' s) (hns : ns = ms ++ .step isOpen ins :: ticks)
    (hticks : ∀ m ∈ ticks, m = .tick) :
    ∃ (k : Operator) (f : Frame), Course op ms k f.store ∧ k.isOpen f.bits = isOpen ∧
      k.inputValues f = ins ∧
        (k.step f).2.store.AgreeOn (fun i => ∃ p ∈ op.ground, i ∈ p) s := by
  induction h generalizing ticks with
  | begun f _ => exact absurd hns.symm (by simp)
  | @step ns k f h _ =>
    rcases Moment.last_cases hns with ⟨rfl, hm⟩ | ⟨rest, rfl, -⟩
    · obtain ⟨hopen, hins⟩ := Moment.step.inj hm
      exact ⟨k, f, h, hopen, hins, .refl _ _⟩
    · cases hticks _ (List.mem_append_right _ List.mem_cons_self)
  | tick _ ih =>
    rcases Moment.last_cases hns with ⟨-, hm⟩ | ⟨rest, rfl, hrest⟩
    · cases hm
    · exact ih hrest (fun m hm => hticks m (List.mem_append_left _ hm))
  | endRun f _ ih => exact ih hns hticks
  | others _ hsame ih =>
    obtain ⟨k, f, hcourse, hopen, hins, hend⟩ := ih hns hticks
    exact ⟨k, f, hcourse, hopen, hins, hend.trans hsame⟩

theorem Course.last_step_of_fixed {ticks : List Moment} {isOpen : Bool} {ins : List (List Value)}
    (h : Course op (ms ++ .step isOpen ins :: ticks) op s) (hk : op.kind.Fixed)
    (hticks : ∀ m ∈ ticks, m = .tick) :
    ∃ f : Frame, Course op ms op f.store ∧ op.isOpen f.bits = isOpen ∧ op.inputValues f = ins ∧
      (op.step f).2.store.AgreeOn (fun i => ∃ p ∈ op.ground, i ∈ p) s := by
  obtain ⟨k, f, hlast, hopen, hins, hend⟩ := h.last_step rfl hticks
  obtain rfl := eq_of_resting hlast.spec.1 hk
  exact ⟨f, hlast, hopen, hins, hend⟩

end Operator

end Readout
