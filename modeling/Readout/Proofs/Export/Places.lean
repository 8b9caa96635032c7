import Readout.Proofs.Export.Files

/-!
# Files of earlier runs

A run creates the files of its sinks and writes nowhere else. Nothing of what it leaves is noticed
by a later run: a file that is created again is empty, and directories are neither made nor removed
on the way. So where a sink can create its file on a volume, it can create it on everything that
runs have made of that volume, and it finds the same file there.
-/
namespace Readout

namespace Volume

/-- No node, or a file. -/
def Free : Option Node → Prop
  | none | some (.file _) => True
  | _ => False

/-- What stands in a place where a file was created. Devices stay what they are. -/
def created : Option Node → Node
  | some .full => .full
  | some .sink => .sink
  | _ => .file []

theorem created_of_free {n : Option Node} (h : Free n) : created n = .file [] := by
  rcases n with - | - | old | - | -
  · rfl
  · rfl
  · rfl
  all_goals cases h

/-- The same volume up to files in a set of places. -/
structure UpTo (F : List String → Prop) (v w : Volume) : Prop where
  current : v.current = w.current
  nodes : ∀ p, v.find? p = w.find? p ∨ F p ∧ Free (v.find? p) ∧ Free (w.find? p)

variable {F : List String → Prop} {u v w : Volume} {path : String} {k : FileHandle}

namespace UpTo

theorem refl (F : List String → Prop) (v : Volume) : UpTo F v v := ⟨rfl, fun _ => Or.inl rfl⟩

theorem trans (h : UpTo F u v) (h' : UpTo F v w) : UpTo F u w := by
  refine ⟨h.current.trans h'.current, fun p => ?_⟩
  rcases h.nodes p with heq | ⟨hF, hu, hv⟩
  · rw [heq]
    exact h'.nodes p
  · rcases h'.nodes p with heq | ⟨-, -, hw⟩
    · exact Or.inr ⟨hF, hu, heq ▸ hv⟩
    · exact Or.inr ⟨hF, hu, hw⟩

/-- Writes to open files keep the sorts of all nodes. -/
theorem of_agreeOn (h : AgreeOn (fun p => ¬ F p) v w) : UpTo F v w := by
  refine ⟨h.current, fun p => ?_⟩
  by_cases hF : F p
  · have hs := h.sorts p
    rcases hv : v.find? p with - | - | old | - | - <;>
      rcases hw : w.find? p with - | - | new | - | - <;> rw [hv, hw] at hs <;>
        first
          | exact Or.inl rfl
          | cases hs
    exact Or.inr ⟨hF, trivial, trivial⟩
  · exact Or.inl (h.files p hF)

theorem created_eq (h : UpTo F v w) (p : List String) :
    created (v.find? p) = created (w.find? p) := by
  rcases h.nodes p with heq | ⟨-, hv, hw⟩
  · rw [heq]
  · rw [created_of_free hv, created_of_free hw]

theorem directory_iff (h : UpTo F v w) (p : List String) :
    v.find? p = some .directory ↔ w.find? p = some .directory := by
  rcases h.nodes p with heq | ⟨-, hv, hw⟩
  · rw [heq]
  · refine ⟨fun hd => ?_, fun hd => ?_⟩
    · rw [hd] at hv
      cases hv
    · rw [hd] at hw
      cases hw

theorem walk (h : UpTo F v w) {names place q : List String} (hv : v.walk place names = .ok q) :
    w.walk place names = .ok q := by
  induction names generalizing place with
  | nil => exact hv
  | cons name names ih =>
    rw [Volume.walk] at hv ⊢
    by_cases hd : v.find? place = some .directory
    · rw [hd] at hv
      rw [(h.directory_iff place).1 hd]
      dsimp only at hv ⊢
      split at hv <;> rename_i hc
      · rw [if_pos hc]
        exact ih hv
      · rw [if_neg hc]
        split at hv <;> rename_i hc
        · rw [if_pos hc]
          exact ih hv
        · rw [if_neg hc]
          split at hv <;> rename_i hc
          · cases hv
          · rw [if_neg hc]
            exact ih hv
    · split at hv
      · cases hv
      · next hn => exact absurd hn hd
      · cases hv

theorem locate (h : UpTo F v w) {q : List String} (hv : v.locate path = .ok q) :
    w.locate path = .ok q := by
  have hstart : w.start path = v.start path := by rw [start, start, h.current]
  rw [Volume.locate] at hv ⊢
  split at hv
  · cases hv
  · next hne =>
    rw [if_neg hne]
    split at hv
    · cases hv
    · next hnul =>
      rw [if_neg hnul, hstart]
      exact h.walk hv

end UpTo

theorem createAt_spec {place : List String} (hd : v.find? place ≠ some .directory) :
    (v.createAt place).1 = .ok ⟨place⟩ ∧ (v.createAt place).2.current = v.current ∧
      ∀ p, (v.createAt place).2.find? p =
        if p = place then some (created (v.find? place)) else v.find? p := by
  have hput : ∀ p, (v.put place (.file [])).find? p =
      if p = place then some (.file []) else v.find? p := fun p => v.find?_put place p _
  have hsame : ∀ n, v.find? place = some n →
      ∀ p, v.find? p = if p = place then some n else v.find? p := by
    intro n hn p
    split
    · next hp => rw [hp, hn]
    · rfl
  rw [createAt]
  rcases hn : v.find? place with - | - | old | - | -
  · exact ⟨rfl, v.current_put _ _, hput⟩
  · exact absurd hn hd
  · exact ⟨rfl, v.current_put _ _, hput⟩
  · exact ⟨rfl, rfl, hsame _ hn⟩
  · exact ⟨rfl, rfl, hsame _ hn⟩

theorem create_eq_ok (hk : (v.create path).1 = .ok k) :
    v.locate path = .ok k.place ∧ v.find? k.place ≠ some .directory := by
  rw [create] at hk
  cases hl : v.locate path with
  | error e =>
    rw [hl] at hk
    cases hk
  | ok place =>
    rw [hl] at hk
    dsimp only at hk
    by_cases hd : v.find? place = some .directory
    · rw [createAt, hd] at hk
      cases hk
    · rw [(createAt_spec hd).1] at hk
      obtain rfl := Except.ok.inj hk
      exact ⟨rfl, hd⟩

/-- Creating a file comes to the same on all volumes that differ in files only. -/
theorem create_spec (hk : (v.create path).1 = .ok k) (h : UpTo F v w) :
    (w.create path).1 = .ok k ∧ (w.create path).2.current = w.current ∧
      ∀ p, (w.create path).2.find? p =
        if p = k.place then some (created (v.find? k.place)) else w.find? p := by
  obtain ⟨hl, hd⟩ := create_eq_ok hk
  rw [create, h.locate hl, h.created_eq]
  exact createAt_spec fun hw => hd ((h.directory_iff k.place).2 hw)

theorem UpTo.create (hk : (v.create path).1 = .ok k) (h : UpTo F v w) (hF : F k.place) :
    UpTo F v (w.create path).2 := by
  obtain ⟨-, hcurrent, hfind⟩ := create_spec hk h
  refine ⟨h.current.trans hcurrent.symm, fun p => ?_⟩
  rw [hfind]
  split
  · next hp =>
    rw [hp]
    rcases hn : v.find? k.place with - | - | old | - | -
    · exact Or.inr ⟨hF, trivial, trivial⟩
    · exact absurd hn (create_eq_ok hk).2
    · exact Or.inr ⟨hF, trivial, trivial⟩
    · exact Or.inl rfl
    · exact Or.inl rfl
  · exact h.nodes p

end Volume

namespace ExportSink

/-- A sink that has no file open begins a run with an empty one. -/
theorem beginRun_eq {F : List String → Prop} {v w : Volume} {s : ExportSink} {k : FileHandle}
    (hw : s.writer = none) (hk : (v.create s.path).1 = .ok k) (h : Volume.UpTo F v w) :
    s.beginRun w =
      ({ s.blank with
          writer := some (if s.level = 0 then .plain (Buffered.new k)
            else .compressed (Buffered.new k) []) }, (w.create s.path).2) := by
  obtain ⟨hok, -, -⟩ := Volume.create_spec hk h
  have hcreate : Files.create w s.path = (.ok k, (w.create s.path).2) := Prod.ext hok rfl
  rw [beginRun, ExportWriter.create, hcreate, hw]
  by_cases hl : s.level = 0
  · simp only [if_pos hl]
    rfl
  · simp only [if_neg hl]
    rfl

/-- Whatever file a sink had open, when a run begins it writes to that file and creates its own. -/
theorem beginRun_upTo {F : List String → Prop} {v w : Volume} {s : ExportSink} {k : FileHandle}
    (hold : ∀ h ∈ s.handle?, F h.place) (hk : (v.create s.path).1 = .ok k) (hF : F k.place)
    (h : Volume.UpTo F v w) :
    Volume.UpTo F v (s.beginRun w).2 ∧ ∀ h ∈ (s.beginRun w).1.handle?, h = k := by
  obtain ⟨hok, -, -⟩ := Volume.create_spec hk h
  have hcreate : Files.create w s.path = (.ok k, (w.create s.path).2) := Prod.ext hok rfl
  have habandon : ∀ u, Volume.UpTo F v u → Volume.UpTo F v (abandon s.writer u) := by
    intro u hu
    cases hw : s.writer with
    | none => exact hu
    | some e =>
      have hplace : F e.handle.place := hold e.handle (by simp [handle?, hw])
      have hrespects : Files.Respects (fun u w => u = w ∧ Volume.UpTo F v w) e.handle := by
        rintro u _ position bytes ⟨rfl, hu⟩
        have hframe := u.agree_writeAt (F := fun p => ¬ F p) e.handle position bytes
          fun hn => hn hplace
        exact ⟨rfl, rfl, hu.trans (.of_agreeOn hframe)⟩
      exact (e.release_related hrespects rfl ⟨rfl, hu⟩).2
  rw [beginRun, ExportWriter.create, hcreate]
  by_cases hl : s.level = 0
  · simp only [if_pos hl]
    exact ⟨habandon _ (h.create hk hF), fun _ he => (Option.some.inj he).symm⟩
  · simp only [if_neg hl]
    exact ⟨habandon _ (h.create hk hF), fun _ he => (Option.some.inj he).symm⟩

end ExportSink

end Readout
