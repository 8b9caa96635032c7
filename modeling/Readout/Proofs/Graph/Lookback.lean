import Readout.Proofs.Graph.Moments

/-!
# Looking back

An operator that keeps what was there before writes what it remembers before it remembers what it
reads. So its output lags by one step of its own: by the last step that was executed, or by the last
one that found a valid value. The beginning of a run makes it forget, a closed gate does not.
-/
namespace Readout

/-- The last of some values, or the last valid one. -/
def lookedBack (keepValid : Bool) (vs : List Value) : Value :=
  (if keepValid then vs.filter Value.isValid else vs).getLast?.getD Value.invalid

theorem foldl_remembered (keepValid : Bool) (vs : List Value) :
    vs.foldl (Element.remembered keepValid) Value.invalid = lookedBack keepValid vs := by
  induction vs using List.reverseRecOn with
  | nil => cases keepValid <;> rfl
  | append_singleton vs v ih =>
    rw [List.foldl_append, ih]
    cases keepValid with
    | false => simp [lookedBack, Element.remembered]
    | true =>
      cases hv : v.isValid <;> simp [lookedBack, Element.remembered, List.filter_append, hv]

namespace Operator

open Moment

variable {op : Operator} {ms : List Moment} {s : Store} {f : Frame} {p o : Pipe}
  {gate : Option Nat} {previous : Span} {keepValid : Bool} {i : Nat}

theorem getD_inputValues (hin : op.inputs = [p]) (hi : i < p.length) :
    ((op.inputValues f).headD []).getD i Value.invalid = f.store.get p.data i := by
  have hvalues : f.values p = (List.range p.length).map (f.store.get p.data) := rfl
  rw [inputValues, hin, List.map_singleton, List.headD_cons, hvalues, List.getD_eq_getElem?_getD,
    List.getElem?_map, List.getElem?_range hi]
  rfl

/-- What is remembered is what a look back over the executed steps finds. -/
theorem Course.remembers
    (h : Course ⟨[p], [o], gate, .keepPrevious previous keepValid⟩ ms op s)
    (hi : i < previous.length) : s.get previous i = lookedBack keepValid (readings i ms) := by
  have hin : previous.offset + i ∈ previous := ⟨Nat.le_add_right _ _, Nat.add_lt_add_left hi _⟩
  have hmem : previous ∈ (Kind.keepPrevious previous keepValid).memory :=
    List.mem_singleton_self previous
  rw [← foldl_remembered]
  refine h.memory_eq (Kind.fixed_keepPrevious previous keepValid) (fun s => s.get previous i)
    (fun s t hsame => hsame.get_eq ⟨previous, hmem, hin⟩) (fun f hr => ?_) fun f hr => ?_
  · refine f.store.get_fill Value.invalid hi (hr.fits _ ?_)
    exact List.mem_append_right _ (InRange.memory_mem_owned hmem)
  · obtain ⟨_, _, hp, ho, hl, -⟩ := hr.shaped
    cases hp
    cases ho
    rw [getD_inputValues rfl (hl ▸ hi)]
    exact get_previous hr hi

end Operator

namespace Graph

/-- In every run, an operator that looks back shows what the steps executed before its last one have
found, the steps under a closed gate not counted. -/
theorem keepPrevious_lags (g : Graph) (hg : g.Begun) (since : List RunCall)
    (hsince : .beginRun ∉ since) (event place : Nat) (op : Operator) (previous : Span)
    (keepValid : Bool) (hop : (since.foldl RunCall.apply g).occupant? event place = some op)
    (hkind : op.kind = .keepPrevious previous keepValid) (ms ticks : List Moment)
    (ins : List (List Value)) (hticks : ∀ m ∈ ticks, m = .tick)
    (hmoments : moments event place g since = ms ++ .step true ins :: ticks) :
    ∀ o ∈ op.outputs, ∀ i < o.length, (since.foldl RunCall.apply g).arena.store.get o.data i =
      lookedBack keepValid (Moment.readings i ms) := by
  intro o ho i hi
  have hfixed : op.kind.Fixed := hkind ▸ Kind.fixed_keepPrevious previous keepValid
  have hcourse := hg.course_of_fixed hsince hop (by rw [hkind]; rfl) hfixed
  rw [hmoments] at hcourse
  obtain ⟨f, hlast, hopen, -, hend⟩ := hcourse.last_step_of_fixed hfixed hticks
  have hr := hlast.spec.2
  rw [← hend.get_eq ⟨o.data, Operator.output_mem_ground ho, Nat.le_add_right _ _,
    Nat.add_lt_add_left hi _⟩, Operator.step, if_pos hopen]
  clear hop hcourse
  obtain ⟨inputs, outputs, gate, kind⟩ := op
  obtain rfl : kind = _ := hkind
  obtain ⟨p, q, rfl, rfl, hl, hq⟩ := hr.shaped
  obtain rfl := List.mem_singleton.1 ho
  rw [hr.get_keepPrevious hi]
  exact hlast.remembers (by omega)

open Workbench in
/-- An operator that keeps the valid values of an input that holds one. -/
def lookingBack : Graph :=
  let input : Pipe := ⟨⟨0, 1⟩, ⟨4, 1⟩, ⟨8, 1⟩⟩
  ((after 4096 .batched [.pushPipe 1 .zero .two, .assign input.data [.one],
    .makeOperator (.keepPrevious input true), .addOperator 0 0 none]).plan.build .fresh).beginRun

/-- Two events, with a tick behind each. -/
def twoSteps : List RunCall :=
  [.during (.beginEvent 0), .during (.endEvent 0), .during .tick, .during (.beginEvent 0),
    .during (.endEvent 0), .during .tick]

/-- After the second event the operator shows what the first one has found. -/
theorem keepPrevious_lags_lookingBack :
    lookingBack.Begun ∧ .beginRun ∉ twoSteps ∧ moments 0 0 lookingBack twoSteps =
        [.step true [[.one]], .tick, .step true [[.one]], .tick] ∧
      ∃ op previous, (twoSteps.foldl RunCall.apply lookingBack).occupant? 0 0 = some op ∧
        op.kind = .keepPrevious previous true ∧ ∀ o ∈ op.outputs, ∀ i < o.length,
          (twoSteps.foldl RunCall.apply lookingBack).arena.store.get o.data i =
            lookedBack true (Moment.readings i [.step true [[.one]], .tick]) := by
  have hg : lookingBack.Begun := ⟨_, ⟨4096, .batched, _, .fresh, [], rfl⟩, rfl⟩
  have hsince : .beginRun ∉ twoSteps := by simp [twoSteps]
  have hmoments : moments 0 0 lookingBack twoSteps =
    [.step true [[.one]], .tick, .step true [[.one]], .tick] := by decide +kernel
  have hkind : ((twoSteps.foldl RunCall.apply lookingBack).occupant? 0 0).map Operator.kind =
    some (.keepPrevious ⟨12, 1⟩ true) := by with_unfolding_all rfl
  obtain ⟨op, hop, hkind⟩ := Option.map_eq_some_iff.1 hkind
  exact ⟨hg, hsince, hmoments, op, _, hop, hkind, keepPrevious_lags lookingBack hg twoSteps
    hsince 0 0 op _ true hop hkind [.step true [[.one]], .tick] [.tick] [[.one]] (by simp)
    hmoments⟩

end Graph

end Readout
