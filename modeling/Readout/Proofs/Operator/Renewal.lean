import Readout.Proofs.Export.Places
import Readout.Proofs.Operator.Phase

/-!
# Operators that begin a run

An operator begins a run in the same state whatever it did before, and so does a sink that has
closed its file. Its file is created where the path leads to, and nothing else on the volume
changes.
-/
namespace Readout

namespace Kind

def isExpression : Kind → Bool
  | expression _ => true
  | _ => false

def path? : Kind → Option String
  | exportSink s => some s.path
  | _ => none

theorem isExpression_resting (k : Kind) : k.resting.isExpression = k.isExpression := by
  cases k <;> rfl

theorem path?_resting (k : Kind) : k.resting.path? = k.path? := by
  cases k <;> rfl

theorem writer_eq_none {s : ExportSink} (h : (exportSink s).opened = false) : s.writer = none := by
  cases hw : s.writer with
  | none => rfl
  | some w => simp [opened, hw] at h

theorem revised_of_not_expression {k : Kind} (h : k.isExpression = false) (outputs : List Pipe) :
    k.revised outputs = [] := by
  cases k with
  | expression => cases h
  | _ => rfl

end Kind

namespace Operator

variable {op op' : Operator} {f f' : Frame} {v : Volume} {F : List String → Prop}

/-- Where the file of an operator is created on a volume. -/
def Creates (op : Operator) (v : Volume) (place : List String) : Prop :=
  ∃ path ∈ op.kind.path?, (v.create path).1 = .ok ⟨place⟩

/-- If the operator has a file, it can be created on a volume, in a place of a set. -/
def Housed (op : Operator) (v : Volume) (F : List String → Prop) : Prop :=
  ∀ path ∈ op.kind.path?, ∃ k, (v.create path).1 = .ok k ∧ F k.place

theorem path?_of_resting (hr : op.resting = op'.resting) : op.kind.path? = op'.kind.path? := by
  rw [← Kind.path?_resting, ← Kind.path?_resting op'.kind]
  exact congrArg (fun k : Operator => k.kind.path?) hr

theorem creates_resting (op : Operator) : op.resting.Creates = op.Creates := by
  funext v place
  rw [Creates, Creates, kind_resting, Kind.path?_resting]

theorem creates_of_resting (hr : op.resting = op'.resting) (v : Volume) :
    op.Creates v = op'.Creates v := by
  rw [← creates_resting, hr, creates_resting]

theorem housed_resting (op : Operator) : op.resting.Housed = op.Housed := by
  funext v F
  rw [Housed, Housed, kind_resting, Kind.path?_resting]

theorem Housed.of_resting (h : op.Housed v F) (hr : op.resting = op'.resting) :
    op'.Housed v F := by
  rwa [← housed_resting, ← hr, housed_resting]

theorem isExpression_of_resting (hr : op.resting = op'.resting) :
    op.kind.isExpression = op'.kind.isExpression := by
  rw [← Kind.isExpression_resting, ← Kind.isExpression_resting op'.kind]
  exact congrArg (fun k : Operator => k.kind.isExpression) hr

theorem not_opens_of_closed (h : op.kind.opened = false) (place : List String) :
    ¬ op.Opens place := by
  rintro ⟨k, hk, -⟩
  obtain ⟨inputs, outputs, gate, kind⟩ := op
  cases kind with
  | exportSink s =>
    simp only [Kind.handle?, ExportSink.handle?, Kind.writer_eq_none h] at hk
    cases hk
  | _ => cases hk

theorem beginRun_rests (hp : op.kind.path? = none) (hx : op.kind.isExpression = false)
    (f : Frame) : (op.beginRun f).1 = op.resting ∧ (op.beginRun f).2.volume = f.volume := by
  obtain ⟨inputs, outputs, gate, kind⟩ := op
  cases kind with
  | exportSink => cases hp
  | expression => cases hx
  | histograms hs =>
    simp only [beginRun, Histogram.clearEach_eq, and_true]
    rfl
  | _ => exact ⟨rfl, rfl⟩

/-- Operators that differ in what earlier runs have left become the same. -/
theorem beginRun_alike (hr : op.resting = op'.resting) (hx : op.kind.isExpression = false)
    (ho : op.kind.opened = false) (ho' : op'.kind.opened = false) (hk : op.Housed v F)
    (h : v.UpTo F f.volume) (h' : v.UpTo F f'.volume) :
    (op.beginRun f).1 = (op'.beginRun f').1 := by
  have hkinds : op.kind.resting = op'.kind.resting := congrArg kind hr
  cases hp : op.kind.path? with
  | none =>
    have hp' : op'.kind.path? = none := path?_of_resting hr ▸ hp
    have hx' : op'.kind.isExpression = false := isExpression_of_resting hr ▸ hx
    rw [(beginRun_rests hp hx f).1, (beginRun_rests hp' hx' f').1, hr]
  | some path =>
    obtain ⟨k, hk, -⟩ := hk path hp
    obtain ⟨inputs, outputs, gate, kind⟩ := op
    obtain ⟨inputs', outputs', gate', kind'⟩ := op'
    cases kind with
    | exportSink s =>
      cases kind' with
      | exportSink s' =>
        obtain rfl : s.path = path := Option.some.inj hp
        have hblank : s.blank = s'.blank := Kind.exportSink.inj hkinds
        have hpath := congrArg ExportSink.path hblank
        have hlevel := congrArg ExportSink.level hblank
        change s.path = s'.path at hpath
        change s.level = s'.level at hlevel
        simp only [beginRun, s.beginRun_eq (Kind.writer_eq_none ho) hk h,
          s'.beginRun_eq (Kind.writer_eq_none ho') (hpath ▸ hk) h', hblank, hlevel]
        simp only [resting, mk.injEq] at hr ⊢
        exact ⟨hr.1, hr.2.1, hr.2.2.1, trivial⟩
      | _ => cases hkinds
    | _ => cases hp

/-- A file that is created looks the same on all volumes that earlier runs may have left. -/
theorem beginRun_volume (hx : op.kind.isExpression = false) (ho : op.kind.opened = false)
    (hk : op.Housed v F) (h : v.UpTo F f.volume) :
    v.UpTo F (op.beginRun f).2.volume ∧
      (∀ p, op.Creates v p →
        (op.beginRun f).2.volume.find? p = some (Volume.created (v.find? p))) ∧
        ∀ p, ¬ op.Creates v p → (op.beginRun f).2.volume.find? p = f.volume.find? p := by
  cases hp : op.kind.path? with
  | none =>
    rw [(beginRun_rests hp hx f).2]
    refine ⟨h, fun p hc => ?_, fun _ _ => rfl⟩
    obtain ⟨path, hpath, -⟩ := hc
    rw [hp] at hpath
    cases hpath
  | some path =>
    obtain ⟨k, hk, hF⟩ := hk path hp
    have hvolume : (op.beginRun f).2.volume = (f.volume.create path).2 := by
      obtain ⟨inputs, outputs, gate, kind⟩ := op
      cases kind with
      | exportSink s =>
        obtain rfl : s.path = path := Option.some.inj hp
        simp only [beginRun, s.beginRun_eq (Kind.writer_eq_none ho) hk h]
      | _ => cases hp
    obtain ⟨-, -, hfind⟩ := Volume.create_spec hk h
    rw [hvolume]
    refine ⟨h.create hk hF, fun p hc => ?_, fun p hc => ?_⟩
    · obtain ⟨path', hpath', hplace⟩ := hc
      obtain rfl := Option.some.inj (hp.symm.trans hpath')
      obtain rfl := Except.ok.inj (hk.symm.trans hplace)
      rw [hfind, if_pos rfl]
    · rw [hfind, if_neg]
      rintro rfl
      exact hc ⟨path, hp, hk⟩

end Operator

/-- Stores that hold the same in a set of slots, and volumes that runs have made of one, with the
same nodes in a set of places. -/
structure Restarted (v : Volume) (F A : List String → Prop) (P : Nat → Prop) (st st' : Store)
    (w w' : Volume) : Prop where
  store : st.AgreeOn P st'
  volume : v.UpTo F w
  volume' : v.UpTo F w'
  files : ∀ p, A p → w.find? p = w'.find? p

/-- When operators begin a run that differ in what earlier runs have left, they become the same, and
so do what they remember and their files. -/
theorem Operator.beginRun_restarted {op op' : Operator} {f f' : Frame} {v : Volume}
    {F A : List String → Prop} {P : Nat → Prop} (hr : op.resting = op'.resting)
    (hx : op.kind.isExpression = false) (ho : op.kind.opened = false)
    (ho' : op'.kind.opened = false) (hk : op.Housed v F)
    (hfit : ∀ p ∈ op.kind.state ++ op.kind.bins, p.stop ≤ f.store.slots)
    (h : Restarted v F A P f.store f'.store f.volume f'.volume) :
    (op.beginRun f).1 = (op'.beginRun f').1 ∧
      Restarted v F (fun p => A p ∨ op.Creates v p)
        (fun i => P i ∨ ∃ p ∈ op.kind.state ++ op.kind.bins, i ∈ p)
        (op.beginRun f).2.store (op'.beginRun f').2.store
        (op.beginRun f).2.volume (op'.beginRun f').2.volume := by
  have hx' : op'.kind.isExpression = false := isExpression_of_resting hr ▸ hx
  have hsame := beginRun_alike hr hx ho ho' hk h.volume h.volume'
  obtain ⟨hup, hmade, hkept⟩ := beginRun_volume hx ho hk h.volume
  obtain ⟨hup', hmade', hkept'⟩ := beginRun_volume hx' ho' (hk.of_resting hr) h.volume'
  rw [← creates_of_resting hr] at hmade' hkept'
  refine ⟨hsame, beginRun_renews hr hfit h.store, hup, hup', fun p hp => ?_⟩
  by_cases hcreates : op.Creates v p
  · rw [hmade p hcreates, hmade' p hcreates]
  · rw [hkept p hcreates, hkept' p hcreates]
    exact h.files p (hp.resolve_right hcreates)

theorem Restarted.mono {v : Volume} {F A B : List String → Prop} {P R : Nat → Prop} {st st' : Store}
    {w w' : Volume} (h : Restarted v F A P st st' w w') (hP : ∀ i, R i → P i)
    (hA : ∀ p, B p → A p) : Restarted v F B R st st' w w' :=
  ⟨h.store.mono hP, h.volume, h.volume', fun p hp => h.files p (hA p hp)⟩

/-- Where the files of all runs are the same, nothing tells the volumes apart. -/
theorem Restarted.agree {v : Volume} {F A : List String → Prop} {P : Nat → Prop} {st st' : Store}
    {w w' : Volume} (h : Restarted v F A P st st' w w') (hA : ∀ p, F p → A p) :
    w.AgreeOn (fun _ => True) w' := by
  have hfind : ∀ p, w.find? p = w'.find? p := by
    intro p
    by_cases hF : F p
    · exact h.files p (hA p hF)
    · rcases h.volume.nodes p with hv | ⟨hF', -⟩
      · rcases h.volume'.nodes p with hv' | ⟨hF', -⟩
        · exact hv.symm.trans hv'
        · exact absurd hF' hF
      · exact absurd hF' hF
  exact ⟨h.volume.current.symm.trans h.volume'.current, fun p => by rw [hfind], fun p _ => hfind p⟩

end Readout
