import Mathlib.Data.List.Induction
import Readout.Proofs.Export.Files

/-!
# The life of a sink

Whichever file operations fail, a sink that remembers a failure has no file open and writes nothing
until the next run begins (`Failed`), and it counts the events that it has written since then. If
none fails in a run without compression, the pieces that are handed to the file follow one another
without a gap and are what the events are encoded as (`Handed`): what is still in the buffer is
the end of it, and when the run has ended nothing is left there.
-/
namespace Readout

section Handing

variable {V : Type} [Files V] {h : FileHandle} {v₀ v v' : V} {done : List UInt8}

/-- Writes pieces one behind the other. -/
def handOver (h : FileHandle) : Nat → List (List UInt8) → V → Option V
  | _, [], v => some v
  | position, bytes :: rest, v =>
    match Files.write v h position bytes with
    | (.ok _, v) => handOver h (position + bytes.length) rest v
    | (.error _, _) => none

theorem handOver_snoc (position : Nat) (pieces : List (List UInt8)) (bytes : List UInt8) (v : V) :
    handOver h position (pieces ++ [bytes]) v =
      (handOver h position pieces v).bind
        (handOver h (position + pieces.flatten.length) [bytes]) := by
  induction pieces generalizing position v with
  | nil => rfl
  | cons piece rest ih =>
    rw [List.cons_append, handOver, handOver]
    split
    · rw [ih, List.flatten_cons, List.length_append, Nat.add_assoc]
    · rfl

/-- On a volume, what is handed over behind the contents of a file becomes part of them. -/
theorem Volume.find?_handOver {v w : Volume} {old : List UInt8} {pieces : List (List UInt8)}
    (hv : v.find? h.place = some (.file old)) (hw : handOver h old.length pieces v = some w) :
    w.find? h.place = some (.file (old ++ pieces.flatten)) := by
  induction pieces generalizing v old with
  | nil =>
    obtain rfl := Option.some.inj hw
    rw [hv, List.flatten_nil, List.append_nil]
  | cons bytes rest ih =>
    have hwrite : Files.write v h old.length bytes =
        (.ok (), v.put h.place (.file (old ++ bytes))) := by
      change v.writeAt h old.length bytes = _
      rw [writeAt, hv]
      simp [overlay, List.drop_eq_nil_of_le]
    rw [handOver, hwrite, ← List.length_append] at hw
    rw [ih (by rw [find?_put, if_pos rfl]) hw, List.flatten_cons, List.append_assoc]

/-- The bytes that a buffer has handed on since the file stood as in `v₀`. -/
structure Sent (h : FileHandle) (v₀ : V) (sent : List UInt8) (b : Buffered) (v : V) : Prop where
  handle : b.handle = h
  position : b.position = sent.length
  pieces : ∃ pieces, handOver h 0 pieces v₀ = some v ∧ pieces.flatten = sent

/-- The bytes that a buffer has taken over: some were handed on, the others are pending. -/
structure Handed (h : FileHandle) (v₀ : V) (done : List UInt8) (b : Buffered) (v : V) : Prop where
  size : b.size = b.pending.length
  sent : ∃ sent, Sent h v₀ sent b v ∧ sent ++ b.pending = done

variable {sent bytes : List UInt8} {b b' : Buffered}

theorem Sent.new (h : FileHandle) (v : V) : Sent h v [] (Buffered.new h) v :=
  ⟨rfl, rfl, [], rfl, rfl⟩

theorem Sent.writeThrough (hb : Sent h v₀ sent b v)
    (hw : b.writeThrough bytes v = (none, b', v')) :
    Sent h v₀ (sent ++ bytes) b' v' ∧ b'.pieces = b.pieces ∧ b'.size = b.size := by
  obtain ⟨hh, hposition, pieces, hover, rfl⟩ := hb
  rw [Buffered.writeThrough, hh] at hw
  split at hw
  · next hok =>
    obtain ⟨-, hw⟩ := Prod.mk.inj hw
    obtain ⟨rfl, rfl⟩ := Prod.mk.inj hw
    refine ⟨⟨rfl, by simp [hposition], pieces ++ [bytes], ?_, by simp⟩, rfl, rfl⟩
    rw [handOver_snoc, hover, Option.bind_some, Nat.zero_add, ← hposition, handOver, hok]
    rfl
  · cases hw

namespace Handed

theorem new (h : FileHandle) (v : V) : Handed h v [] (Buffered.new h) v :=
  ⟨rfl, [], .new h v, rfl⟩

theorem of_sent (hb : Sent h v₀ done b v) (hp : b.pending = []) (hs : b.size = 0) :
    Handed h v₀ done b v :=
  ⟨by rw [hs, hp, List.length_nil], done, hb, by rw [hp, List.append_nil]⟩

theorem pending_eq_nil (hb : Handed h v₀ done b v) (hs : b.size = 0) : b.pending = [] :=
  List.eq_nil_of_length_eq_zero (hb.size.symm.trans hs)

theorem push (hb : Handed h v₀ done b v) (bytes : List UInt8) :
    Handed h v₀ (done ++ bytes) (b.push bytes) v := by
  obtain ⟨hsize, sent, ⟨hh, hposition, hover⟩, rfl⟩ := hb
  have hpending : (b.push bytes).pending = b.pending ++ bytes := by
    simp [Buffered.push, Buffered.pending]
  refine ⟨?_, sent, ⟨hh, hposition, hover⟩, by rw [hpending, List.append_assoc]⟩
  rw [hpending, List.length_append, ← hsize, Buffered.push]

theorem flush (hb : Handed h v₀ done b v) (hf : b.flush v = (none, b', v')) :
    Sent h v₀ done b' v' ∧ b'.pending = [] ∧ b'.size = 0 := by
  obtain ⟨sent, hsent, rfl⟩ := hb.sent
  rw [Buffered.flush] at hf
  split at hf
  · next hs =>
    obtain ⟨-, hf⟩ := Prod.mk.inj hf
    obtain ⟨rfl, rfl⟩ := Prod.mk.inj hf
    have hp := hb.pending_eq_nil hs
    exact ⟨by rwa [hp, List.append_nil], hp, hs⟩
  · split at hf
    · next hw =>
      obtain ⟨-, hf⟩ := Prod.mk.inj hf
      obtain ⟨rfl, rfl⟩ := Prod.mk.inj hf
      obtain ⟨⟨hh, hposition, hover⟩, -⟩ := hsent.writeThrough hw
      exact ⟨⟨hh, hposition, hover⟩, rfl, rfl⟩
    · cases hf

/-- Room for a piece is made by writing out what is pending. Room for a piece that is not buffered
is there only when nothing is pending. -/
theorem makeRoom {b₁ : Buffered} {v₁ : V} (hb : Handed h v₀ done b v)
    (hroom : (if b.size + bytes.length ≤ Buffered.capacity then (none, b, v) else b.flush v) =
      (none, b₁, v₁)) :
    Handed h v₀ done b₁ v₁ ∧ (Buffered.capacity ≤ bytes.length →
      Sent h v₀ done b₁ v₁ ∧ b₁.pending = [] ∧ b₁.size = 0) := by
  split at hroom
  · obtain ⟨-, hroom⟩ := Prod.mk.inj hroom
    obtain ⟨rfl, rfl⟩ := Prod.mk.inj hroom
    refine ⟨hb, fun hcap => ?_⟩
    have hs : b.size = 0 := by omega
    have hp := hb.pending_eq_nil hs
    obtain ⟨sent, hsent, hdone⟩ := hb.sent
    rw [hp, List.append_nil] at hdone
    exact ⟨hdone ▸ hsent, hp, hs⟩
  · obtain ⟨hsent, hp, hs⟩ := hb.flush hroom
    exact ⟨of_sent hsent hp hs, fun _ => ⟨hsent, hp, hs⟩⟩

theorem write (hb : Handed h v₀ done b v) (hw : b.write bytes v = (none, b', v')) :
    Handed h v₀ (done ++ bytes) b' v' := by
  rw [Buffered.write] at hw
  split at hw
  · obtain ⟨-, hw⟩ := Prod.mk.inj hw
    obtain ⟨rfl, rfl⟩ := Prod.mk.inj hw
    exact hb.push bytes
  · split at hw
    · cases hw
    · next b₁ v₁ hroom =>
      obtain ⟨hb₁, hempty⟩ := hb.makeRoom hroom
      split at hw
      · next hcap =>
        obtain ⟨hsent, hp, hs⟩ := hempty hcap
        obtain ⟨hsent, hpieces, hsize⟩ := hsent.writeThrough hw
        exact of_sent hsent (by rwa [Buffered.pending, hpieces]) (hsize.trans hs)
      · obtain ⟨-, hw⟩ := Prod.mk.inj hw
        obtain ⟨rfl, rfl⟩ := Prod.mk.inj hw
        exact hb₁.push bytes

end Handed

/-- A writer without a compressor hands on the pieces that it is given. -/
theorem ExportWriter.writeAll_handed {pieces : List (List UInt8)} {w : ExportWriter}
    (hb : Handed h v₀ done b v)
    (hw : (ExportWriter.plain b).writeAll v pieces = (none, w, v')) :
    ∃ b', w = .plain b' ∧ Handed h v₀ (done ++ pieces.flatten) b' v' := by
  induction pieces generalizing b v done with
  | nil =>
    obtain ⟨-, hw⟩ := Prod.mk.inj hw
    obtain ⟨rfl, rfl⟩ := Prod.mk.inj hw
    exact ⟨b, rfl, by rwa [List.flatten_nil, List.append_nil]⟩
  | cons bytes rest ih =>
    rw [writeAll, ExportWriter.write] at hw
    rcases hone : b.write bytes v with ⟨e, b₁, v₁⟩
    rw [hone] at hw
    cases e with
    | some e => cases hw
    | none =>
      obtain ⟨b', hb', hhanded⟩ := ih (hb.write hone) hw
      exact ⟨b', hb', by rwa [List.flatten_cons, ← List.append_assoc]⟩

theorem ExportWriter.finish_handed {w : ExportWriter} (hb : Handed h v₀ done b v)
    (hw : (ExportWriter.plain b).finish v = (none, w, v')) :
    ∃ pieces, handOver h 0 pieces v₀ = some v' ∧ pieces.flatten = done := by
  rw [finish] at hw
  rcases hf : b.flush v with ⟨e, b₁, v₁⟩
  simp only [hf, Prod.mk.injEq] at hw
  obtain ⟨rfl, -, rfl⟩ := hw
  exact (hb.flush hf).1.pieces

end Handing

/-- What happens to a sink. A step brings the values of its inputs. -/
inductive SinkCall
  | beginRun
  | step (inputs : List (List Value))
  | tick
  | endRun
deriving DecidableEq

namespace ExportSink

/-- The last input of a sink with a condition does not belong to its data. -/
def dataOf (s : ExportSink) (inputs : List (List Value)) : List (List Value) :=
  if s.hasCondition then inputs.dropLast else inputs

/-- The condition, if there is one, has a valid value first. -/
def Admits (s : ExportSink) (inputs : List (List Value)) : Prop :=
  s.hasCondition = true → ∃ c cs, inputs.getLast? = some (c :: cs) ∧ c.isValid = true

instance (s : ExportSink) (inputs : List (List Value)) : Decidable (s.Admits inputs) :=
  decidable_of_iff (s.hasCondition = false ∨
      (inputs.getLast?.bind List.head?).any Value.isValid = true) <| by
    rw [Admits]
    cases s.hasCondition with
    | false => simp
    | true =>
      rcases inputs.getLast? with - | (- | ⟨c, cs⟩) <;> simp

theorem selected_eq (s : ExportSink) (inputs : List (List Value)) :
    s.selected inputs = if s.Admits inputs then some (s.dataOf inputs) else none := by
  rw [selected, dataOf]
  by_cases hc : s.hasCondition = true
  · rcases hl : inputs.getLast? with - | (- | ⟨c, cs⟩) <;> simp [Admits, hc, hl]
  · simp [Admits, hc]

variable {V : Type} [Files V]

/-- A step does nothing, or it writes the data and either keeps the file open or gives it up. -/
theorem step_cases (s : ExportSink) (inputs : List (List Value)) (v : V) :
    s.step inputs v = (s, v) ∧ (s.Admits inputs → s.writer = none) ∨
    s.Admits inputs ∧ ∃ w e w' v', s.writer = some w ∧
      w.writeAll v (s.format.encode (s.dataOf inputs)) = (e, w', v') ∧
      s.step inputs v =
        match e with
        | none => ({ s with writer := some w', events := s.events + 1 }, v')
        | some e => (s.fail .write e, w'.release v') := by
  rw [step, selected_eq]
  by_cases ha : s.Admits inputs
  · rw [if_pos ha]
    cases hw : s.writer with
    | none => exact .inl ⟨rfl, fun _ => rfl⟩
    | some w =>
      rcases hall : w.writeAll v (s.format.encode (s.dataOf inputs)) with ⟨e, w', v'⟩
      refine .inr ⟨ha, w, e, w', v', rfl, hall, ?_⟩
      cases e <;> simp only [hall]
  · rw [if_neg ha]
    exact .inl ⟨rfl, fun h => absurd h ha⟩

end ExportSink

namespace SinkCall

variable {V : Type} [Files V]

def apply (x : ExportSink × V) : SinkCall → ExportSink × V
  | beginRun => x.1.beginRun x.2
  | step inputs => x.1.step inputs x.2
  | tick => (x.1.tick, x.2)
  | endRun => x.1.endRun x.2

/-- The failure of the first file operation of the call that fails. -/
def failure? (x : ExportSink × V) : SinkCall → Option ExportFailure
  | beginRun =>
    match (Files.create x.2 x.1.path).1 with
    | .ok _ => none
    | .error e => some ⟨.create, x.1.path, e⟩
  | step inputs => do
    let w ← x.1.writer
    if x.1.Admits inputs then
      let e ← (w.writeAll x.2 (x.1.format.encode (x.1.dataOf inputs))).1
      some ⟨.write, x.1.path, e⟩
    else none
  | tick => none
  | endRun => do
    let e ← ((← x.1.writer).finish x.2).1
    some ⟨.flush, x.1.path, e⟩

/-- A step with a valid condition on an open sink that could write all of it. -/
def Writes (x : ExportSink × V) : SinkCall → Bool
  | step inputs =>
    match x.1.writer with
    | some w => x.1.Admits inputs ∧
        (w.writeAll x.2 (x.1.format.encode (x.1.dataOf inputs))).1.isNone
    | none => false
  | _ => false

variable {x : ExportSink × V} {c : SinkCall}

theorem blank_apply (x : ExportSink × V) (c : SinkCall) : (c.apply x).1.blank = x.1.blank := by
  cases c with
  | beginRun =>
    rw [apply, ExportSink.beginRun]
    split <;> rfl
  | step inputs => exact x.1.blank_step inputs x.2
  | tick => rfl
  | endRun =>
    rw [apply, ExportSink.endRun]
    split
    · rfl
    · split <;> rfl

/-- A call that fails is remembered and leaves no file open, a beginning run forgets what was
remembered, and every other call keeps it. -/
theorem failure_apply (x : ExportSink × V) (c : SinkCall) :
    match c.failure? x with
    | some f => (c.apply x).1.failure = some f ∧ (c.apply x).1.writer = none
    | none => (c.apply x).1.failure = if c = beginRun then none else x.1.failure := by
  obtain ⟨s, v⟩ := x
  cases c with
  | beginRun =>
    rw [apply, ExportSink.beginRun, failure?, ExportWriter.create]
    rcases Files.create v s.path with ⟨e | h, v'⟩
    · exact ⟨rfl, rfl⟩
    · by_cases hl : s.level = 0 <;> simp [hl]
  | step inputs =>
    rw [apply, failure?]
    rcases s.step_cases inputs v with ⟨hstep, hw⟩ | ⟨ha, w, e, w', v', hw, hall, hstep⟩
    · rw [hstep]
      by_cases ha : s.Admits inputs
      · simp [hw ha]
      · cases s.writer <;> simp [ha]
    · rw [hstep]
      cases e <;> simp [hw, ha, hall, ExportSink.fail]
  | tick => rfl
  | endRun =>
    rw [apply, ExportSink.endRun, failure?]
    cases hw : s.writer with
    | none => simp
    | some w =>
      rcases hf : w.finish v with ⟨- | e, w', v'⟩ <;> simp [hf, ExportSink.fail]

/-- A sink without a file only counts ticks. -/
theorem apply_of_closed (hw : x.1.writer = none) (hc : c ≠ beginRun) :
    ∃ n, c.apply x = ({ x.1 with ticks := n }, x.2) := by
  cases c with
  | beginRun => exact absurd rfl hc
  | step inputs =>
    refine ⟨x.1.ticks, ?_⟩
    rw [apply, ExportSink.step, hw]
    split
    · next h => cases h
    · rfl
  | tick => exact ⟨_, rfl⟩
  | endRun =>
    refine ⟨x.1.ticks, ?_⟩
    rw [apply, ExportSink.endRun, hw]

/-- A sink that remembers a failure has no file open. -/
theorem closed_apply (hx : x.1.failure ≠ none → x.1.writer = none)
    (hfail : (c.apply x).1.failure ≠ none) : (c.apply x).1.writer = none := by
  have h := failure_apply x c
  cases hf : c.failure? x with
  | some f =>
    rw [hf] at h
    exact h.2
  | none =>
    rw [hf] at h
    dsimp only at h
    rw [h] at hfail
    by_cases hc : c = beginRun
    · exact absurd (if_pos hc) hfail
    · rw [if_neg hc] at hfail
      obtain ⟨n, happly⟩ := apply_of_closed (hx hfail) hc
      rw [happly]
      exact hx hfail

def applyAll (x : ExportSink × V) (calls : List SinkCall) : ExportSink × V := calls.foldl apply x

/-- The calls with what each of them finds. -/
def trace (x : ExportSink × V) : List SinkCall → List (SinkCall × (ExportSink × V))
  | [] => []
  | c :: calls => (c, x) :: trace (c.apply x) calls

/-- A sink without a file stays as it is, and so do all files, until a run begins. -/
theorem applyAll_of_closed (hw : x.1.writer = none) {calls : List SinkCall}
    (hc : beginRun ∉ calls) : ∃ n, applyAll x calls = ({ x.1 with ticks := n }, x.2) := by
  induction calls generalizing x with
  | nil => exact ⟨x.1.ticks, rfl⟩
  | cons c calls ih =>
    obtain ⟨hfirst, hc⟩ := not_or.1 (mt List.mem_cons.2 hc)
    obtain ⟨n, happly⟩ := apply_of_closed hw (Ne.symm hfirst)
    obtain ⟨m, hall⟩ := ih (x := c.apply x) (by rw [happly]; exact hw) hc
    exact ⟨m, by rw [applyAll, List.foldl_cons, ← applyAll, hall, happly]⟩

/-- A step with a valid condition. -/
def Selects (s : ExportSink) : SinkCall → Bool
  | step inputs => s.Admits inputs
  | _ => false

/-- The bytes that a step with a valid condition stands for. -/
def encoded (s : ExportSink) : SinkCall → List UInt8
  | step inputs => if s.Admits inputs then (s.format.encode (s.dataOf inputs)).flatten else []
  | _ => []

/-- A sink in a run without compression in which nothing failed so far. -/
structure Recording (h : FileHandle) (v₀ : V) (done : List UInt8) (written : Nat)
    (x : ExportSink × V) : Prop where
  failure : x.1.failure = none
  events : x.1.events = written
  writer : ∃ b, x.1.writer = some (.plain b) ∧ Handed h v₀ done b x.2

section Recorded

variable {h : FileHandle} {v₀ : V} {done : List UInt8} {written : Nat}

theorem Recording.apply (hx : Recording h v₀ done written x) (hbegin : c ≠ beginRun)
    (hend : c ≠ endRun) (hok : (c.apply x).1.failure = none) :
    Recording h v₀ (done ++ c.encoded x.1) (written + if c.Selects x.1 then 1 else 0)
      (c.apply x) := by
  obtain ⟨s, v⟩ := x
  obtain ⟨hf, hevents, b, hb, hhanded⟩ := hx
  cases c with
  | beginRun => exact absurd rfl hbegin
  | endRun => exact absurd rfl hend
  | tick => exact ⟨hf, hevents, b, hb, by simpa [encoded, SinkCall.apply] using hhanded⟩
  | step inputs =>
    rw [SinkCall.apply] at hok ⊢
    rcases s.step_cases inputs v with ⟨hstep, hw⟩ | ⟨ha, w, e, w', v', hw, hall, hstep⟩
    · have ha : ¬ s.Admits inputs := fun ha => by
        rw [hw ha] at hb
        cases hb
      rw [hstep]
      exact ⟨hf, by simpa [Selects, ha] using hevents, b, hb, by simpa [encoded, ha] using hhanded⟩
    · cases e with
      | some e =>
        rw [hstep] at hok
        cases hok
      | none =>
        obtain rfl : w = .plain b := Option.some.inj (hw.symm.trans hb)
        obtain ⟨b', rfl, hhanded⟩ := ExportWriter.writeAll_handed hhanded hall
        rw [hstep]
        refine ⟨hf, ?_, b', rfl, ?_⟩
        · simpa [Selects, ha] using hevents
        · simpa [encoded, ha] using hhanded

theorem encoded_of_blank {s t : ExportSink} (h : s.blank = t.blank) :
    encoded s = encoded t ∧ Selects s = Selects t := by
  have hformat : s.format = t.format := (congrArg ExportSink.format h :)
  have hcondition : s.hasCondition = t.hasCondition := (congrArg ExportSink.hasCondition h :)
  have hadmits : ∀ inputs, s.Admits inputs ↔ t.Admits inputs := fun inputs => by
    rw [ExportSink.Admits, ExportSink.Admits, hcondition]
  constructor <;> funext c <;> cases c <;>
    simp [encoded, Selects, hadmits, ExportSink.dataOf, hformat, hcondition]

/-- A failure would still be remembered at the end. -/
theorem failure_eq_none (hx : x.1.failure ≠ none → x.1.writer = none) {calls : List SinkCall}
    (hc : beginRun ∉ calls) (hok : (applyAll x calls).1.failure = none) : x.1.failure = none := by
  by_contra hfail
  obtain ⟨n, hall⟩ := applyAll_of_closed (hx hfail) hc
  rw [hall] at hok
  exact hfail hok

theorem Recording.applyAll (hx : Recording h v₀ done written x) {calls : List SinkCall}
    (hbegin : beginRun ∉ calls) (hend : endRun ∉ calls)
    (hok : (applyAll x calls).1.failure = none) :
    Recording h v₀ (done ++ calls.flatMap (encoded x.1)) (written + calls.countP (Selects x.1))
      (applyAll x calls) := by
  induction calls generalizing x done written with
  | nil => simpa [SinkCall.applyAll] using hx
  | cons c calls ih =>
    obtain ⟨hc, hbegin⟩ := not_or.1 (mt List.mem_cons.2 hbegin)
    obtain ⟨hc', hend⟩ := not_or.1 (mt List.mem_cons.2 hend)
    have hclosed : (c.apply x).1.failure ≠ none → (c.apply x).1.writer = none :=
      closed_apply fun hfail => absurd hx.failure hfail
    have hone := hx.apply (Ne.symm hc) (Ne.symm hc') (failure_eq_none hclosed hbegin hok)
    have hrest := ih hone hbegin hend hok
    obtain ⟨hencoded, hselects⟩ := encoded_of_blank (blank_apply x c)
    rw [hencoded, hselects] at hrest
    have hdone : done ++ c.encoded x.1 ++ calls.flatMap (encoded x.1) =
        done ++ (c :: calls).flatMap (encoded x.1) := by simp
    have hcount : (written + if c.Selects x.1 then 1 else 0) + calls.countP (Selects x.1) =
        written + (c :: calls).countP (Selects x.1) := by
      rw [List.countP_cons]
      omega
    rwa [hdone, hcount] at hrest

/-- What was recorded is in the file when the run has ended. -/
theorem Recording.endRun (hx : Recording h v₀ done written x)
    (hok : (endRun.apply x).1.failure = none) :
    (∃ pieces, handOver h 0 pieces v₀ = some (endRun.apply x).2 ∧ pieces.flatten = done) ∧
      (endRun.apply x).1.writer = none ∧ (endRun.apply x).1.events = written := by
  obtain ⟨s, v⟩ := x
  obtain ⟨hf, hevents, b, hb, hhanded⟩ := hx
  dsimp only at hevents hb hhanded
  rw [SinkCall.apply, ExportSink.endRun] at hok ⊢
  dsimp only at hok ⊢
  rw [hb] at hok ⊢
  dsimp only at hok ⊢
  rcases hfinish : (ExportWriter.plain b).finish v with ⟨- | e, w', v'⟩
  · exact ⟨ExportWriter.finish_handed hhanded hfinish, rfl, hevents⟩
  · rw [hfinish] at hok
    cases hok

end Recorded

end SinkCall

end Readout
