import Readout.Proofs.Source.Completions

/-!
# Slices

What is extracted from a group can be cut again into the fields of its patterns. Each slice has the
bits of the word that its pattern took last, whatever was done with the group, and the slices fill
the extracted number without gaps (`Group.extract_slices`).
-/
namespace Readout

/-- What can be done with a group. -/
inductive GroupCall
  | add (p : Pattern)
  | offer (word : UInt32) (index : Int)
  | release

namespace GroupCall

/-- A pattern that finds no room leaves the group as it is. -/
def apply (g : Group) : GroupCall → Group
  | add p =>
    match g.add p with
    | .ok g' => g'
    | .error _ => g
  | offer word index => g.offer word index
  | release => g.release

/-- The number of the pattern that takes a word, with the word. -/
def taken? (g : Group) : GroupCall → Option (Nat × UInt32)
  | add _ => none
  | offer word index =>
    (g.members.findIdx? fun m => !m.taken && m.pattern.accepts word index).map (·, word)
  | release => none

end GroupCall

namespace Group

def afterCalls (g : Group) (calls : List GroupCall) : Group := calls.foldl GroupCall.apply g

/-- The words that were taken, in their order. -/
def taken : Group → List GroupCall → List (Nat × UInt32)
  | _, [] => []
  | g, c :: cs => (c.taken? g).toList ++ taken (c.apply g) cs

end Group

/-- The word that a pattern took last, zero if it took none. -/
def lastWord (k : Nat) (log : List (Nat × UInt32)) : UInt32 :=
  (log.reverse.find? (·.1 = k)).elim 0 Prod.snd

theorem lastWord_snoc (k : Nat) (log : List (Nat × UInt32)) (x : Nat × UInt32) :
    lastWord k (log ++ [x]) = if x.1 = k then x.2 else lastWord k log := by
  rw [lastWord, List.reverse_append, List.reverse_singleton, List.singleton_append,
    List.find?_cons]
  by_cases hx : x.1 = k <;> simp [hx, lastWord]

namespace Group

section Calls

variable {g : Group}

theorem taken_snoc (g : Group) (calls : List GroupCall) (c : GroupCall) :
    g.taken (calls ++ [c]) = g.taken calls ++ (c.taken? (g.afterCalls calls)).toList := by
  induction calls generalizing g with
  | nil => simp [taken, afterCalls]
  | cons d calls ih =>
    rw [List.cons_append, taken, ih, taken, List.append_assoc]
    rfl

theorem Built.apply (h : g.Built) (c : GroupCall) : (c.apply g).Built := by
  cases c with
  | add p =>
    cases ha : g.add p with
    | ok g' => simpa only [GroupCall.apply, ha] using h.add ha
    | error e => simpa only [GroupCall.apply, ha] using h
  | offer word index => exact h.offer word index
  | release => exact h.release

theorem Built.afterCalls (h : g.Built) (calls : List GroupCall) : (g.afterCalls calls).Built := by
  induction calls generalizing g with
  | nil => exact h
  | cons c calls ih => exact ih (h.apply c)

theorem offerTo_eq (word : UInt32) (index : Int) (ms : List Member) : offerTo word index ms =
    match ms.findIdx? fun m => !m.taken && m.pattern.accepts word index with
    | some k => ms.modify k fun m => { m with word := word, taken := true }
    | none => ms := by
  induction ms with
  | nil => rfl
  | cons m ms ih =>
    rw [offerTo, List.findIdx?_cons]
    split
    · rfl
    · rw [ih]
      cases ms.findIdx? fun m => !m.taken && m.pattern.accepts word index <;> rfl

/-- Every pattern still has the word that it took last. -/
def Remembers (g : Group) (log : List (Nat × UInt32)) : Prop :=
  ∀ k, g.members[k]?.elim 0 Member.word = lastWord k log

section Remembers

variable {log : List (Nat × UInt32)}

theorem Remembers.release (h : g.Remembers log) : g.release.Remembers log := by
  intro k
  rw [← h k, Group.release, List.getElem?_map]
  cases g.members[k]? <;> rfl

theorem Remembers.add (h : g.Remembers log) {p : Pattern} {g' : Group} (ha : g.add p = .ok g') :
    g'.Remembers log := by
  obtain ⟨rfl, -⟩ := add_eq_ok ha
  refine Remembers.release fun k => ?_
  rw [← h k]
  -- the new member has the word zero, as a number that had no member yet
  rcases Nat.lt_trichotomy k g.members.length with hlt | rfl | hgt
  · rw [List.getElem?_append_left hlt]
  · simp [Member.ofPattern]
  · rw [List.getElem?_eq_none (by simp; omega), List.getElem?_eq_none (by omega)]

theorem Remembers.offer (h : g.Remembers log) (word : UInt32) (index : Int) :
    (g.offer word index).Remembers
      (log ++ ((GroupCall.offer word index).taken? g).toList) := by
  intro k
  rw [GroupCall.taken?, Group.offer, offerTo_eq]
  cases hfind : g.members.findIdx? fun m => !m.taken && m.pattern.accepts word index with
  | none => simpa using h k
  | some j =>
    obtain ⟨hj, -⟩ := List.findIdx?_eq_some_iff_getElem.1 hfind
    rw [Option.map_some, Option.toList_some, lastWord_snoc, List.getElem?_modify]
    by_cases hjk : j = k
    · subst hjk
      simp [List.getElem?_eq_getElem hj]
    · simp [hjk, h k]

theorem Remembers.apply (h : g.Remembers log) (c : GroupCall) :
    (c.apply g).Remembers (log ++ (c.taken? g).toList) := by
  cases c with
  | add p =>
    rw [GroupCall.apply, GroupCall.taken?, Option.toList_none, List.append_nil]
    cases ha : g.add p with
    | ok g' => exact h.add ha
    | error e => exact h
  | offer word index => exact h.offer word index
  | release =>
    rw [GroupCall.taken?, Option.toList_none, List.append_nil]
    exact h.release

end Remembers

theorem remembers_taken (calls : List GroupCall) :
    (empty.afterCalls calls).Remembers (empty.taken calls) := by
  induction calls using List.reverseRecOn with
  | nil => exact fun k => rfl
  | append_singleton calls c ih =>
    rw [taken_snoc, afterCalls, List.foldl_append]
    exact ih.apply c

end Calls

end Group

namespace Hand

theorem joined_slice (s : Symbol) {ws : List (Pattern × UInt32)} {k : Nat} {p : Pattern}
    {word : UInt32} (h : ws[k]? = some (p, word)) :
    joined s ws / 2 ^ total ((ws.map fun x => (x.1.field s).bits).take k) % 2 ^ (p.field s).bits =
      ((p.field s).extract word).toNat := by
  induction ws generalizing k with
  | nil => cases h
  | cons x ws ih =>
    obtain ⟨q, w⟩ := x
    have hlt := Field.extract_lt q s w
    cases k with
    | zero =>
      obtain ⟨rfl, rfl⟩ := Prod.mk.inj (Option.some.inj h)
      rw [List.take_zero, total, Nat.pow_zero, Nat.div_one, joined, Nat.add_mul_mod_self_left,
        Nat.mod_eq_of_lt hlt]
    | succ k =>
      have hhigh : joined s ((q, w) :: ws) / 2 ^ (q.field s).bits = joined s ws := by
        rw [joined, Nat.add_mul_div_left _ _ (Nat.two_pow_pos _), Nat.div_eq_of_lt hlt,
          Nat.zero_add]
      rw [List.map_cons, List.take_succ_cons, total, Nat.pow_add, ← Nat.div_div_eq_div_mul, hhigh]
      exact ih h

end Hand

namespace Group

/-- The bits of the patterns add up to no more than a word has, and each slice of the extracted
number is what is gathered under the marks of its pattern. -/
theorem extract_slices (calls : List GroupCall) (part : Part) :
    let g := empty.afterCalls calls
    let widths := g.patterns.map fun p => p.symbols.count part.symbol
    g.bits part = total widths ∧ total widths ≤ 64 ∧ (g.extract part).toNat < 2 ^ total widths ∧
    ∀ k p, g.patterns[k]? = some p →
      (g.extract part).toNat / 2 ^ total (widths.take k) % 2 ^ p.symbols.count part.symbol =
        (Bits.gather (lastWord k (empty.taken calls)) (p.field part.symbol).mask).toNat := by
  intro g widths
  have hbuilt : g.Built := Built.empty.afterCalls calls
  have hread := hbuilt.readable
  have hwidths : widths = g.members.map fun m => (m.field part).bits := by
    simp only [widths, patterns, List.map_map]
    refine List.map_congr_left fun m hm => ?_
    rw [field_eq_symbol (hread.faithful m hm), Pattern.bits_field]
    rfl
  have hbits : g.bits part = total widths := by rw [hwidths, bits]
  refine ⟨hbits, hbits ▸ hread.bits_le part, ?_, fun k p hp => ?_⟩
  · rw [← hbits]
    exact hread.faithful.extract_lt part
  · rw [patterns, List.getElem?_map] at hp
    obtain ⟨m, hm, rfl⟩ := Option.map_eq_some_iff.1 hp
    have hword := remembers_taken calls k
    rw [hm] at hword
    have hat : (g.members.map fun m => (m.pattern, m.word))[k]? = some (m.pattern, m.word) := by
      rw [List.getElem?_map, hm]
      rfl
    have hslice := Hand.joined_slice part.symbol hat
    rw [← join_eq hread.faithful (hread.bits_le part), Field.extract_eq_gather, Pattern.bits_field]
      at hslice
    rw [← hword]
    simpa [widths, patterns, extract, Function.comp_def, Pattern.bits_field] using hslice

/-- The second field lies behind the two bits of the first one. -/
theorem extract_slices_pair :
    let calls : List GroupCall := [.add (.ofSymbols [.one, .data, .data] (by decide) 0),
      .add (.ofSymbols [.zero, .data] (by decide) 1), .offer 6 0, .offer 1 1]
    (empty.afterCalls calls).patterns[1]? = some (.ofSymbols [.zero, .data] (by decide) 1) ∧
      ((empty.afterCalls calls).extract .data).toNat / 2 ^ 2 % 2 ^ 1 = 1 := by
  intro calls
  have hsecond : (empty.afterCalls calls).patterns[1]? =
      some (.ofSymbols [.zero, .data] (by decide) 1) := by decide +kernel
  have hbefore : total (((empty.afterCalls calls).patterns.map
      fun p => p.symbols.count Part.data.symbol).take 1) = 2 := by decide +kernel
  have hwidth : (Pattern.ofSymbols [.zero, .data] (by decide) 1).symbols.count
      Part.data.symbol = 1 := by decide +kernel
  have hgather : (Bits.gather (lastWord 1 (empty.taken calls))
      ((Pattern.ofSymbols [.zero, .data] (by decide) 1).field Part.data.symbol).mask).toNat = 1 := by
    decide +kernel
  obtain ⟨-, -, -, hslices⟩ := extract_slices calls .data
  have hslice := hslices 1 _ hsecond
  rw [hbefore, hwidth, hgather] at hslice
  exact ⟨hsecond, hslice⟩

end Group

end Readout
