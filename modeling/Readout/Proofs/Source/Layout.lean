import Readout.Proofs.Operator.Layout
import Readout.Source.Basic

/-!
# What sources occupy

A source owns the spans of its outputs and of its hit counts. A recipe names the maker of a source
with its arguments; what it makes has one element for each address, or one output for each.
-/
namespace Readout

inductive SourceRecipe
  | group (g : Group) (required : Nat) (o : SourceOptions)
  | packed (p : Packing) (repetitions : Nat) (lowRepetition : Bool) (o : SourceOptions)
  | word (p : Pattern) (shape : Shape) (maxHits : Nat) (o : SourceOptions)

def SourceRecipe.make : SourceRecipe → Alloc Source
  | group g required o => Source.ofGroup g required o
  | packed p repetitions lowRepetition o => Source.ofPacking p repetitions lowRepetition o
  | word p shape maxHits o => Source.ofPattern p shape maxHits o

def SourceRecipe.decoder : SourceRecipe → Decoder
  | group g required _ => .group ⟨g, max required 1, 0⟩
  | packed p repetitions lowRepetition _ => .packed ⟨p, max repetitions 1, lowRepetition⟩
  | word p shape maxHits _ => .word ⟨p, p.field .address, p.field .data, shape, maxHits⟩

namespace Source

def owned (s : Source) : List Span := s.outputs.flatMap Pipe.spans ++ [s.hitCounts]

/-- The spans that hits are kept in. -/
def written (s : Source) : List Span := s.outputs.map Pipe.data ++ [s.hitCounts]

theorem written_subset (s : Source) : s.written ⊆ s.owned := by
  intro p hp
  rcases List.mem_append.1 hp with hp | hp
  · obtain ⟨v, hv, rfl⟩ := List.mem_map.1 hp
    exact List.mem_append_left _ (List.mem_flatMap.2 ⟨v, hv, v.data_mem_spans⟩)
  · exact List.mem_append_right _ hp

/-- The arrangement of the outputs of a decoder. -/
def Arranged (d : Decoder) (outputs : List Pipe) : Prop :=
  match d with
  | .word d =>
    match d.shape with
    | .perHit => outputs.length = d.maxHits ∧
        ∀ p ∈ outputs, p.length = (Decoder.word d).addressCount
    | .perAddress => outputs.length = (Decoder.word d).addressCount ∧
        ∀ p ∈ outputs, p.length = d.maxHits
  | d => ∃ p, outputs = [p] ∧ p.length = d.addressCount

/-- What the maker of a source has checked and arranged. -/
structure Shaped (s : Source) : Prop where
  counts : s.hitCounts.length = s.decoder.addressCount
  bits : s.decoder.addressBits ≤ maxAddressBits
  arranged : Arranged s.decoder s.outputs

structure Made (s : Source) : Prop where
  outputs_even : ∀ p ∈ s.outputs, p.Even
  shaped : s.Shaped

structure MadeWith (d : Decoder) (s : Source) : Prop where
  made : s.Made
  decoder_eq : s.decoder = d

theorem takes_pushOutputs (length : Nat) (upper : Value) (count : Nat) :
    Takes [] (pushOutputs length upper count) (fun ps => ps.flatMap Pipe.spans) fun ps =>
      ps.length = count ∧ ∀ p ∈ ps, p.Even ∧ p.length = length := by
  induction count with
  | zero => exact .pure (.refl []) ⟨rfl, by simp⟩
  | succ n ih =>
    rw [pushOutputs]
    refine (Pipe.takes_push length Value.zero upper).bind fun p hp => ?_
    refine (ih.frame p.spans).bind fun ps hps => .pure ?_ ⟨by simp [hps.1], ?_⟩
    · exact @List.perm_append_comm _ (ps.flatMap Pipe.spans) p.spans
    · intro q hq
      rcases List.mem_cons.1 hq with rfl | hq
      · exact hp
      · exact hps.2 q hq

theorem takes_make (d : Decoder) (count length dataBits : Nat) (o : SourceOptions)
    (hb : d.addressBits ≤ maxAddressBits)
    (ha : ∀ ps : List Pipe, ps.length = count → (∀ p ∈ ps, p.length = length) → Arranged d ps) :
    Takes [] (make d count length dataBits o) owned (MadeWith d) := by
  rw [make]
  refine (takes_pushOutputs length _ count).bind fun outputs ho => ?_
  refine ((Arena.takes_pushSpan d.addressCount).frame _).bind fun counts hc => ?_
  refine .pure ?_ ⟨⟨fun p hp => (ho.2 p hp).1, hc, hb, ?_⟩, rfl⟩
  · exact (List.perm_append_singleton counts (outputs.flatMap Pipe.spans)).symm
  · exact ha outputs ho.1 fun p hp => (ho.2 p hp).2

theorem takes_checkBits {base : List Span} (bits : Nat) :
    Takes base (checkBits bits : Alloc Unit) (fun _ => base) fun _ => bits ≤ maxAddressBits := by
  rw [checkBits]
  split
  · exact .throw
  · next h => exact .pure (.refl base) (Nat.le_of_not_lt h)

theorem arranged_single {d : Decoder} (hd : ∀ w, d ≠ .word w) {ps : List Pipe}
    (hl : ps.length = 1) (hp : ∀ p ∈ ps, p.length = d.addressCount) : Arranged d ps := by
  obtain ⟨p, rfl⟩ := List.length_eq_one_iff.1 hl
  cases d with
  | word w => exact absurd rfl (hd w)
  | group g => exact ⟨p, rfl, hp p (List.mem_singleton_self p)⟩
  | packed q => exact ⟨p, rfl, hp p (List.mem_singleton_self p)⟩

theorem takes_ofGroup (g : Group) (required : Nat) (o : SourceOptions) :
    Takes [] (ofGroup g required o) owned (MadeWith (SourceRecipe.group g required o).decoder) := by
  rw [ofGroup]
  apply Takes.check
  intro _
  refine (takes_checkBits _).bind fun _ hb => takes_make _ 1 _ _ o hb fun ps hl hp => ?_
  exact arranged_single (by simp) hl hp

theorem takes_ofPacking (p : Packing) (repetitions : Nat) (lowRepetition : Bool)
    (o : SourceOptions) : Takes [] (ofPacking p repetitions lowRepetition o) owned
      (MadeWith (SourceRecipe.packed p repetitions lowRepetition o).decoder) := by
  rw [ofPacking]
  refine (takes_checkBits _).bind fun _ hb => takes_make _ 1 _ _ o hb fun ps hl hp => ?_
  exact arranged_single (by simp) hl hp

theorem takes_ofPattern (p : Pattern) (shape : Shape) (maxHits : Nat) (o : SourceOptions) :
    Takes [] (ofPattern p shape maxHits o) owned
      (MadeWith (SourceRecipe.word p shape maxHits o).decoder) := by
  rw [ofPattern]
  apply Takes.check
  intro _
  refine (takes_checkBits _).bind fun _ hb => ?_
  cases shape with
  | perHit => exact takes_make _ maxHits _ _ o hb fun ps hl hp => ⟨hl, hp⟩
  | perAddress => exact takes_make _ _ maxHits _ o hb fun ps hl hp => ⟨hl, hp⟩

end Source

/-- A recipe takes what its source owns, and nothing else. -/
theorem SourceRecipe.takes_make (r : SourceRecipe) :
    Takes [] r.make Source.owned (Source.MadeWith r.decoder) := by
  cases r with
  | group g required o => exact Source.takes_ofGroup g required o
  | packed p repetitions low o => exact Source.takes_ofPacking p repetitions low o
  | word p shape maxHits o => exact Source.takes_ofPattern p shape maxHits o

end Readout
