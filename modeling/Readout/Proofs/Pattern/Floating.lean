import Readout.Proofs.Source.Completions

/-!
# Patterns without a position

A pattern that is pinned to no position takes a word wherever it stands, and so does a group of such
patterns. Texts give patterns of this kind, but for those of packed words.
-/
namespace Readout

/-- The pattern fits words at every position. -/
def Pattern.Floating (p : Pattern) : Prop := p.wordIndex < 0

instance (p : Pattern) : Decidable p.Floating := inferInstanceAs (Decidable (p.wordIndex < 0))

namespace Pattern

variable {p : Pattern}

theorem Floating.accepts_eq (h : p.Floating) (word : UInt32) (i j : Int) :
    p.accepts word i = p.accepts word j := by
  have hp : p.wordIndex < 0 := h
  simp [accepts, hp]

theorem floating_parse {text : String} (h : parse text = .ok p) : p.Floating := by
  obtain ⟨-, hi⟩ := read_eq_ok h
  simp [Floating, hi]

end Pattern

namespace Group

def Floating (g : Group) : Prop := ∀ p ∈ g.patterns, p.Floating

variable {g g' : Group}

theorem Floating.of_blank (h : g.Floating) (hb : g'.blank = g.blank) : g'.Floating := by
  rwa [Floating, patterns_of_blank hb]

theorem Floating.offer_eq (h : g.Floating) (word : UInt32) (i j : Int) :
    g.offer word i = g.offer word j := by
  have hmembers : ∀ ms : List Member, (∀ m ∈ ms, m.pattern.Floating) →
      offerTo word i ms = offerTo word j ms := by
    intro ms hms
    induction ms with
    | nil => rfl
    | cons m ms ih =>
      obtain ⟨hm, hms⟩ := List.forall_mem_cons.1 hms
      rw [offerTo, offerTo, hm.accepts_eq word i j, ih hms]
  simp only [offer, hmembers g.members fun m hm => h _ (List.mem_map_of_mem hm)]

theorem floating_parse {texts : List String} (h : parse texts = .ok g) : g.Floating := by
  have hread : ∀ (texts : List String) (ps : List Pattern),
      texts.mapM Pattern.parse = .ok ps → ∀ p ∈ ps, p.Floating := by
    intro texts
    induction texts with
    | nil =>
      intro ps hps
      simp [← Except.ok.inj hps]
    | cons text texts ih =>
      intro ps hps
      rw [List.mapM_cons] at hps
      obtain ⟨p, hp, hps⟩ := exists_of_bind_eq_ok hps
      obtain ⟨qs, hqs, hps⟩ := exists_of_bind_eq_ok hps
      rw [← Except.ok.inj hps]
      exact List.forall_mem_cons.2 ⟨Pattern.floating_parse hp, ih qs hqs⟩
  obtain ⟨ps, hps, h⟩ := exists_of_bind_eq_ok h
  rw [Floating, patterns_ofPatterns h]
  simpa [patterns, empty] using hread texts ps hps

end Group

end Readout
