import Readout.Export.Sink

/-!
# Files that sinks write

A write to an open file replaces the contents of that file and nothing else, and whether it
succeeds depends on the sort of the node that stands there, which no write changes. So what a sink
becomes in a step does not depend on the contents of files, and two sinks with different files do
not notice each other. That a sink carries a relation between volumes along is stated for any
relation which the writes to its file respect.
-/
namespace Readout

/-- A node without its contents. -/
def Node.sort : Node → Node
  | file _ => file []
  | n => n

namespace Volume

theorem lookup_put (nodes : List (List String × Node)) (place p : List String) (n : Node) :
    (nodes.map fun (q, m) => if q = place then (q, n) else (q, m)).lookup p =
      if p = place then (nodes.lookup p).map fun _ => n else nodes.lookup p := by
  induction nodes with
  | nil => simp
  | cons e nodes ih =>
    obtain ⟨q, m⟩ := e
    have hb : ∀ {x y : List String}, x ≠ y → (x == y) = false := fun h => by simpa using h
    by_cases hq : q = place
    · subst hq
      by_cases hp : p = q
      · simp [hp]
      · simp only [List.map_cons, if_true, List.lookup_cons, hb hp, ih, if_neg hp]
    · by_cases hp : p = q
      · subst hp
        simp [hq]
      · simp only [List.map_cons, if_neg hq, List.lookup_cons, hb hp, ih]

theorem find?_put (v : Volume) (place p : List String) (n : Node) :
    (v.put place n).find? p = if p = place then some n else v.find? p := by
  rw [put]
  split
  · next h =>
    rw [find?, find?, lookup_put]
    split
    · next hp =>
      obtain ⟨m, hm⟩ := Option.isSome_iff_exists.1 h
      rw [find?, ← hp] at hm
      rw [hm]
      rfl
    · rfl
  · next h =>
    have hnone : v.nodes.lookup place = none := Option.not_isSome_iff_eq_none.1 h
    rw [find?, find?, List.lookup_append]
    by_cases hp : p = place
    · subst hp
      simp [hnone]
    · have hb : (p == place) = false := by simpa using hp
      simp [List.lookup_cons, hb, hp]

theorem current_put (v : Volume) (place : List String) (n : Node) :
    (v.put place n).current = v.current := by
  rw [put]
  split <;> rfl

/-- The same sorts of nodes everywhere, and the same contents in a set of places. -/
structure AgreeOn (F : List String → Prop) (v w : Volume) : Prop where
  current : v.current = w.current
  sorts : ∀ p, (v.find? p).map Node.sort = (w.find? p).map Node.sort
  files : ∀ p, F p → v.find? p = w.find? p

namespace AgreeOn

variable {F G : List String → Prop} {u v w : Volume}

theorem refl (F : List String → Prop) (v : Volume) : AgreeOn F v v :=
  ⟨rfl, fun _ => rfl, fun _ _ => rfl⟩

theorem symm (h : AgreeOn F v w) : AgreeOn F w v :=
  ⟨h.current.symm, fun p => (h.sorts p).symm, fun p hp => (h.files p hp).symm⟩

theorem trans (h : AgreeOn F u v) (k : AgreeOn F v w) : AgreeOn F u w :=
  ⟨h.current.trans k.current, fun p => (h.sorts p).trans (k.sorts p),
    fun p hp => (h.files p hp).trans (k.files p hp)⟩

theorem mono (h : AgreeOn F v w) (hG : ∀ p, G p → F p) : AgreeOn G v w :=
  ⟨h.current, h.sorts, fun p hp => h.files p (hG p hp)⟩

end AgreeOn

theorem agree_put (v : Volume) {F : List String → Prop} {place : List String} {old new : List UInt8}
    (h : v.find? place = some (.file old)) (hF : ¬ F place) :
    AgreeOn F v (v.put place (.file new)) := by
  refine ⟨(v.current_put place _).symm, fun p => ?_, fun p hp => ?_⟩
  · rw [find?_put]
    split
    · next hp =>
      rw [hp, h]
      rfl
    · rfl
  · rw [find?_put, if_neg fun hq : p = place => hF (hq ▸ hp)]

theorem agree_writeAt (v : Volume) {F : List String → Prop} (h : FileHandle) (position : Nat)
    (bytes : List UInt8) (hF : ¬ F h.place) : AgreeOn F v (v.writeAt h position bytes).2 := by
  rw [writeAt]
  split
  · next hf => exact v.agree_put hf hF
  all_goals exact AgreeOn.refl F v

theorem AgreeOn.writeAt {F : List String → Prop} {v w : Volume} (hv : AgreeOn F v w)
    (h : FileHandle) (position : Nat) (bytes : List UInt8) :
    (v.writeAt h position bytes).1 = (w.writeAt h position bytes).1 ∧
      AgreeOn F (v.writeAt h position bytes).2 (w.writeAt h position bytes).2 := by
  have hs := hv.sorts h.place
  rw [Volume.writeAt, Volume.writeAt]
  rcases hn : v.find? h.place with - | - | old | - | - <;>
    rcases hm : w.find? h.place with - | - | old' | - | - <;> rw [hn, hm] at hs <;>
      try first
        | exact ⟨rfl, hv⟩
        | cases hs
  refine ⟨rfl, ?_, fun p => ?_, fun p hp => ?_⟩
  · exact (v.current_put _ _).trans (hv.current.trans (w.current_put _ _).symm)
  · rw [find?_put, find?_put]
    split
    · rfl
    · exact hv.sorts p
  · rw [find?_put, find?_put]
    split
    · next hpl =>
      have hold := hv.files p hp
      rw [hpl, hn, hm] at hold
      cases hold
      rfl
    · exact hv.files p hp

end Volume

/-- Writes through a handle succeed alike on related volumes, and leave related volumes. -/
def Files.Respects {V : Type} [Files V] (R : V → V → Prop) (h : FileHandle) : Prop :=
  ∀ v w position bytes, R v w →
    (Files.write v h position bytes).1 = (Files.write w h position bytes).1 ∧
      R (Files.write v h position bytes).2 (Files.write w h position bytes).2

/-- Two outcomes of one operation of a writer on related volumes. -/
structure Files.Alike {V α : Type} (R : V → V → Prop) (φ : α → Prop)
    (x y : Option FileError × α × V) : Prop where
  failure_eq : x.1 = y.1
  result_eq : x.2.1 = y.2.1
  related : R x.2.2 y.2.2
  holds : φ x.2.1

section Alike

open Files

variable {V α : Type} {R : V → V → Prop} {v w : V} {φ : α → Prop}

theorem Files.Alike.of_related {e : Option FileError} {a : α} (hv : R v w) (ha : φ a) :
    Alike R φ (e, a, v) (e, a, w) :=
  ⟨rfl, rfl, hv, ha⟩

theorem Files.Alike.cases {x y : Option FileError × α × V} (hxy : Alike R φ x y) :
    ∃ e a v w, x = (e, a, v) ∧ y = (e, a, w) ∧ R v w ∧ φ a := by
  obtain ⟨e, a, v⟩ := x
  obtain ⟨e', a', w⟩ := y
  obtain rfl : e = e' := hxy.failure_eq
  obtain rfl : a = a' := hxy.result_eq
  exact ⟨e, a, v, w, rfl, rfl, hxy.related, hxy.holds⟩

end Alike

section Respects

open Files

variable {V : Type} [Files V] {R : V → V → Prop} {h : FileHandle} {v w : V}

theorem Files.respects_eq : Respects (fun v w : V => v = w) h := by
  rintro v w position bytes rfl
  exact ⟨rfl, rfl⟩

namespace Buffered

variable {b : Buffered}

theorem alike_writeThrough (hR : Respects R h) (hb : b.handle = h) (hv : R v w)
    (bytes : List UInt8) :
    Alike R (fun b => b.handle = h) (b.writeThrough bytes v) (b.writeThrough bytes w) := by
  subst hb
  obtain ⟨heq, hw⟩ := hR v w b.position bytes hv
  rw [writeThrough, writeThrough]
  rcases hx : Files.write v b.handle b.position bytes with ⟨e | _, v'⟩ <;>
    rcases hy : Files.write w b.handle b.position bytes with ⟨e' | _, w'⟩ <;>
      rw [hx, hy] at heq hw <;> cases heq
  · exact .of_related hw rfl
  · exact .of_related hw rfl

theorem alike_flush (hR : Respects R h) (hb : b.handle = h) (hv : R v w) :
    Alike R (fun b => b.handle = h) (b.flush v) (b.flush w) := by
  rw [flush, flush]
  split
  · exact .of_related hv hb
  · obtain ⟨e, b, v, w, hx, hy, hv, hb⟩ := (alike_writeThrough hR hb hv b.pending).cases
    rw [hx, hy]
    cases e with
    | none => exact .of_related hv hb
    | some e => exact .of_related hv hb

theorem alike_write (hR : Respects R h) (hb : b.handle = h) (hv : R v w) (bytes : List UInt8) :
    Alike R (fun b => b.handle = h) (b.write bytes v) (b.write bytes w) := by
  rw [write, write]
  split
  · exact .of_related hv hb
  · have hf : Alike R (fun b => b.handle = h)
        (if b.size + bytes.length ≤ capacity then (none, b, v) else b.flush v)
        (if b.size + bytes.length ≤ capacity then (none, b, w) else b.flush w) := by
      split
      · exact .of_related hv hb
      · exact alike_flush hR hb hv
    obtain ⟨e, b, v, w, hx, hy, hv, hb⟩ := hf.cases
    rw [hx, hy]
    cases e with
    | some e => exact .of_related hv hb
    | none =>
      dsimp only
      split
      · exact alike_writeThrough hR hb hv bytes
      · exact .of_related hv hb

end Buffered

namespace ExportWriter

def handle : ExportWriter → FileHandle
  | plain b => b.handle
  | compressed b _ => b.handle

variable {e : ExportWriter}

theorem alike_write (hR : Respects R h) (he : e.handle = h) (hv : R v w) (bytes : List UInt8) :
    Alike R (fun e => e.handle = h) (e.write bytes v) (e.write bytes w) := by
  cases e with
  | plain b =>
    obtain ⟨e, b, v, w, hx, hy, hv, hb⟩ := (Buffered.alike_write hR he hv bytes).cases
    simp only [write, hx, hy]
    exact .of_related hv hb
  | compressed b pieces =>
    obtain ⟨e, b, v, w, hx, hy, hv, hb⟩ :=
      (Buffered.alike_write hR he hv (Files.compress V pieces.reverse bytes)).cases
    simp only [write, hx, hy]
    cases e with
    | none => exact .of_related hv hb
    | some e => exact .of_related hv hb

theorem alike_writeAll (hR : Respects R h) (he : e.handle = h) (hv : R v w)
    (pieces : List (List UInt8)) :
    Alike R (fun e => e.handle = h) (e.writeAll v pieces) (e.writeAll w pieces) := by
  induction pieces generalizing e v w with
  | nil => exact .of_related hv he
  | cons bytes rest ih =>
    obtain ⟨c, e, v, w, hx, hy, hv, he⟩ := (alike_write hR he hv bytes).cases
    rw [writeAll, writeAll, hx, hy]
    cases c with
    | none => exact ih he hv
    | some c => exact .of_related hv he

theorem alike_finish (hR : Respects R h) (he : e.handle = h) (hv : R v w) :
    Alike R (fun e => e.handle = h) (e.finish v) (e.finish w) := by
  cases e with
  | plain b =>
    obtain ⟨e, b, v, w, hx, hy, hv, hb⟩ := (Buffered.alike_flush hR he hv).cases
    simp only [finish, hx, hy]
    exact .of_related hv hb
  | compressed b pieces =>
    obtain ⟨e, b, v, w, hx, hy, hv, hb⟩ :=
      (Buffered.alike_write hR he hv (Files.compressEnd V pieces.reverse)).cases
    simp only [finish, hx, hy]
    cases e with
    | some e => exact .of_related hv hb
    | none =>
      obtain ⟨e, b, v, w, hx, hy, hv, hb⟩ := (Buffered.alike_flush hR hb hv).cases
      simp only [hx, hy]
      exact .of_related hv hb

theorem release_related (hR : Respects R h) (he : e.handle = h) (hv : R v w) :
    R (e.release v) (e.release w) := by
  cases e with
  | plain b => exact (Buffered.alike_flush hR he hv).related
  | compressed b pieces =>
    obtain ⟨e, b, v, w, hx, hy, hv, hb⟩ :=
      (Buffered.alike_write hR he hv (Files.compressEnd V pieces.reverse)).cases
    simp only [release, hx, hy]
    exact (Buffered.alike_flush hR hb hv).related

end ExportWriter

namespace ExportSink

variable {s : ExportSink}

def handle? (s : ExportSink) : Option FileHandle := s.writer.map ExportWriter.handle

/-- A sink as it was made. -/
def blank (s : ExportSink) : ExportSink := new s.path s.format s.level s.hasCondition

theorem blank_step (s : ExportSink) (inputs : List (List Value)) (v : V) :
    (s.step inputs v).1.blank = s.blank := by
  rw [step]
  split
  · split <;> rfl
  · rfl

/-- A step of a sink notices of a volume only what the writes to its file notice. -/
theorem step_related (hR : ∀ h ∈ s.handle?, Respects R h) (hv : R v w)
    (inputs : List (List Value)) :
    (s.step inputs v).1 = (s.step inputs w).1 ∧ R (s.step inputs v).2 (s.step inputs w).2 := by
  rw [step, step]
  cases hd : s.selected inputs with
  | none => exact ⟨rfl, hv⟩
  | some data =>
    cases hw : s.writer with
    | none => exact ⟨rfl, hv⟩
    | some e =>
      have hh : e.handle ∈ s.handle? := by simp [handle?, hw]
      obtain ⟨c, e', v, w, hx, hy, hv, he⟩ :=
        (e.alike_writeAll (hR _ hh) rfl hv (s.format.encode data)).cases
      dsimp only
      rw [hx, hy]
      cases c with
      | none => exact ⟨rfl, hv⟩
      | some c => exact ⟨rfl, e'.release_related (hR _ hh) he hv⟩

/-- A step keeps the file open or gives it up. -/
theorem handle?_step {inputs : List (List Value)} {v : V}
    (hh : (s.step inputs v).1.handle? = some h) : s.handle? = some h := by
  rw [step] at hh
  cases hd : s.selected inputs with
  | none => rwa [hd] at hh
  | some data =>
    cases hw : s.writer with
    | none => rwa [hd, hw] at hh
    | some e =>
      rw [hd, hw] at hh
      dsimp only at hh
      obtain ⟨c, e', v', _, hx, -, -, he⟩ :=
        (e.alike_writeAll respects_eq rfl (Eq.refl v) (s.format.encode data)).cases
      rw [hx] at hh
      cases c with
      | some c => cases hh
      | none =>
        dsimp only [handle?, Option.map_some] at hh
        rw [handle?, hw, ← hh, Option.map_some, he]

theorem handle?_endRun (s : ExportSink) {v : V} (hh : (s.endRun v).1.handle? = some h) :
    s.handle? = some h := by
  rw [endRun] at hh
  split at hh
  · exact hh
  · split at hh <;> cases hh

theorem endRun_related (hR : ∀ h ∈ s.handle?, Respects R h) (hv : R v w) :
    (s.endRun v).1 = (s.endRun w).1 ∧ R (s.endRun v).2 (s.endRun w).2 := by
  rw [endRun, endRun]
  cases hw : s.writer with
  | none => exact ⟨rfl, hv⟩
  | some e =>
    have hh : e.handle ∈ s.handle? := by simp [handle?, hw]
    obtain ⟨c, e', v, w, hx, hy, hv, he⟩ := (e.alike_finish (hR _ hh) rfl hv).cases
    dsimp only
    rw [hx, hy]
    cases c with
    | none => exact ⟨rfl, hv⟩
    | some c => exact ⟨rfl, e'.release_related (hR _ hh) he hv⟩

end ExportSink

end Respects

namespace ExportSink

variable {F : List String → Prop} {s : ExportSink} {v w : Volume}

theorem step_agree (hv : Volume.AgreeOn F v w) (inputs : List (List Value)) :
    (s.step inputs v).1 = (s.step inputs w).1 ∧
      Volume.AgreeOn F (s.step inputs v).2 (s.step inputs w).2 :=
  s.step_related (fun h _ _ _ position bytes hv => hv.writeAt h position bytes) hv inputs

theorem endRun_agree (hv : Volume.AgreeOn F v w) : (s.endRun v).1 = (s.endRun w).1 ∧
    Volume.AgreeOn F (s.endRun v).2 (s.endRun w).2 :=
  s.endRun_related (fun h _ _ _ position bytes hv => hv.writeAt h position bytes) hv

/-- Writes to the file that a sink has open leave all other files as they are. -/
theorem respects_frame (s : ExportSink) (v : Volume) (hF : ∀ h ∈ s.handle?, ¬ F h.place) :
    ∀ h ∈ s.handle?, Files.Respects (fun w u => w = u ∧ Volume.AgreeOn F v w) h := by
  rintro h hh w _ position bytes ⟨rfl, hw⟩
  exact ⟨rfl, rfl, hw.trans (w.agree_writeAt h position bytes (hF h hh))⟩

theorem agree_step (s : ExportSink) (inputs : List (List Value)) (v : Volume)
    (hF : ∀ h ∈ s.handle?, ¬ F h.place) : Volume.AgreeOn F v (s.step inputs v).2 :=
  (s.step_related (s.respects_frame v hF) ⟨rfl, Volume.AgreeOn.refl F v⟩ inputs).2.2

theorem agree_endRun (s : ExportSink) (v : Volume) (hF : ∀ h ∈ s.handle?, ¬ F h.place) :
    Volume.AgreeOn F v (s.endRun v).2 :=
  (s.endRun_related (s.respects_frame v hF) ⟨rfl, Volume.AgreeOn.refl F v⟩).2.2

end ExportSink

end Readout
