import Mathlib.Data.List.DropRight
import Readout.Proofs.Config.Stages
import Readout.Proofs.Value.Printed

/-!
# Addresses

A name that a node may have holds no bracket, has no blank at its ends, and does not end like a
reference to an output. Reading a reference from its end takes off the element and the output, and
stops at such a name, whatever dots, digits and blanks it has inside. So every output and every
element of a node has its own texts, and no two of them share one.
-/
namespace Readout

namespace Reference

/-- No blank stands at either end. -/
structure Tight (cs : List Char) : Prop where
  first : ∀ c ∈ cs.head?, isBlank c = false
  last : ∀ c ∈ cs.getLast?, isBlank c = false

/-- The text does not end with a number behind a dot. -/
def Unnumbered (cs : List Char) : Prop :=
  ∀ front ds, cs = front ++ '.' :: ds → ds ≠ [] → ∃ c ∈ ds, c.isDigit = false

/-- A text that is the name of a node and nothing else. -/
structure Plain (cs : List Char) : Prop where
  ne_nil : cs ≠ []
  tight : Tight cs
  opening : '[' ∉ cs
  closing : ']' ∉ cs
  unnumbered : Unnumbered cs

/-- A node, with the number of an output and of an element where they are given. -/
def written (name : String) (output element : Option Nat) : String :=
  name ++ (output.elim "" fun n => "." ++ toString n) ++
    element.elim "" fun i => "[" ++ toString i ++ "]"

def Blank (s : String) : Prop := ∀ c ∈ s.toList, isBlank c = true

instance (s : String) : Decidable (Blank s) :=
  decidable_of_iff (s.toList.all isBlank = true) List.all_eq_true

variable {cs before after front behind name ds : List Char} {mark c : Char}

section Blanks

theorem trim_eq_rdropWhile (cs : List Char) :
    trim cs = (cs.dropWhile isBlank).rdropWhile isBlank := rfl

theorem tight_trim (cs : List Char) : Tight (trim cs) := by
  have hlast : ∀ c ∈ (trim cs).getLast?, isBlank c = false := by
    rw [trim, List.getLast?_reverse]
    intro c hc
    have hnot := List.head?_dropWhile_not isBlank (cs.dropWhile isBlank).reverse
    rw [Option.mem_def.1 hc] at hnot
    simpa using hnot
  refine ⟨fun c hc => ?_, hlast⟩
  obtain ⟨rest, hrest⟩ := (List.rdropWhile_prefix isBlank (l := cs.dropWhile isBlank))
  have hnot := List.head?_dropWhile_not isBlank cs
  rw [← hrest, ← trim_eq_rdropWhile, List.head?_append, Option.mem_def.1 hc] at hnot
  simpa using hnot

theorem Tight.append {ds : List Char} (h : Tight cs) (k : Tight ds) : Tight (cs ++ ds) := by
  constructor
  · intro c hc
    rw [List.head?_append, Option.mem_def, Option.or_eq_some_iff] at hc
    exact hc.elim (h.first c) fun hc => k.first c hc.2
  · intro c hc
    rw [List.getLast?_append, Option.mem_def, Option.or_eq_some_iff] at hc
    exact hc.elim (k.last c) fun hc => h.last c hc.2

theorem tight_singleton (h : isBlank c = false) : Tight [c] :=
  ⟨by simpa using h, by simpa using h⟩

theorem trim_surrounded (h : Tight cs) (hb : ∀ c ∈ before, isBlank c = true)
    (ha : ∀ c ∈ after, isBlank c = true) : trim (before ++ cs ++ after) = cs := by
  rw [trim, List.append_assoc, List.dropWhile_append_of_pos hb]
  cases cs with
  | nil => simp [List.dropWhile_eq_nil_iff.2 ha]
  | cons c cs =>
    have hc : isBlank c = false := h.first c rfl
    have hrev : ∀ a ∈ after.reverse, isBlank a = true := fun a hm => ha a (List.mem_reverse.1 hm)
    rw [List.cons_append, List.dropWhile_cons_of_neg (by simp [hc]), ← List.cons_append,
      List.reverse_append, List.dropWhile_append_of_pos hrev]
    have hlast := h.last
    rw [← List.head?_reverse] at hlast
    cases hcs : (c :: cs).reverse with
    | nil => simp at hcs
    | cons l ls =>
      rw [hcs] at hlast
      have hl : isBlank l = false := hlast l rfl
      rw [List.dropWhile_cons_of_neg (by simp [hl]), ← hcs, List.reverse_reverse]

theorem length_trim_le (cs : List Char) : (trim cs).length ≤ cs.length := by
  rw [trim, List.length_reverse]
  refine (List.dropWhile_suffix isBlank).length_le.trans ?_
  rw [List.length_reverse]
  exact (List.dropWhile_suffix isBlank).length_le

end Blanks

section Digits

theorem ne_of_isDigit (h : c.isDigit = true) (hm : mark.isDigit = false) : c ≠ mark := by
  rintro rfl
  rw [h] at hm
  cases hm

theorem isBlank_of_isDigit (h : c.isDigit = true) : isBlank c = false := by
  have hc : 48 ≤ c.toNat ∧ c.toNat ≤ 57 := by
    simpa [Char.isDigit, UInt32.le_iff_toNat_le] using h
  simp only [isBlank, Bool.or_eq_false_iff, Bool.and_eq_false_iff, decide_eq_false_iff_not,
    beq_eq_false_iff_ne]
  omega

theorem isDigit_of_mem {n : Nat} (h : c ∈ Nat.toDigits 10 n) : c.isDigit = true :=
  Nat.isDigit_of_mem_toDigits (by decide) (by decide) h

theorem not_mem_digits {n : Nat} (h : mark.isDigit = false) : mark ∉ Nat.toDigits 10 n :=
  fun hm => ne_of_isDigit (isDigit_of_mem hm) h rfl

theorem tight_of_digits (h : ∀ c ∈ ds, c.isDigit = true) : Tight ds :=
  ⟨fun c hc => isBlank_of_isDigit (h c (List.mem_of_mem_head? hc)),
    fun c hc => isBlank_of_isDigit (h c (List.mem_of_mem_getLast? hc))⟩

theorem word?_toDigits {n : Nat} (h : n < Word.size 64) : word? (Nat.toDigits 10 n) = some n := by
  have hvalue : (Nat.toDigits 10 n).foldl (fun n c => 10 * n + (c.toNat - '0'.toNat)) 0 = n := by
    rw [← Nat.ofDigitChars_eq_foldl, Nat.ofDigitChars_ten_toDigits]
  have hall : (Nat.toDigits 10 n).all Char.isDigit = true :=
    List.all_eq_true.2 fun c hc => isDigit_of_mem hc
  rw [word?, hvalue, hall]
  simp [h]

theorem element?_toDigits {n : Nat} (h : n < Word.size 64) :
    element? (Nat.toDigits 10 n) = some n := by
  have htrim : trim (Nat.toDigits 10 n) = Nat.toDigits 10 n := by
    have hsurrounded : trim ([] ++ Nat.toDigits 10 n ++ []) = Nat.toDigits 10 n :=
      trim_surrounded (tight_of_digits fun c hc => isDigit_of_mem hc) nofun nofun
    simpa using hsurrounded
  rw [element?, htrim, ← word?_toDigits h]
  split
  · next rest hdigits =>
    have hplus : '+' ∈ Nat.toDigits 10 n := hdigits ▸ List.mem_cons_self
    exact absurd hplus (not_mem_digits rfl)
  · rfl

end Digits

section Splitting

theorem splitLast?_append (h : mark ∉ behind) :
    splitLast? mark (front ++ mark :: behind) = some (front, behind) := by
  have hrev : ∀ c ∈ behind.reverse, decide (c ≠ mark) = true := fun c hc => by
    have hne : c ≠ mark := fun heq => h (heq ▸ List.mem_reverse.1 hc)
    simpa using hne
  have hcut : (front ++ mark :: behind).reverse = behind.reverse ++ mark :: front.reverse := by simp
  rw [splitLast?, if_pos (by simp), hcut]
  dsimp only
  rw [List.dropWhile_append_of_pos hrev, List.takeWhile_append_of_pos hrev]
  simp

theorem splitLast?_cases (mark : Char) (cs : List Char) :
    (mark ∉ cs ∧ splitLast? mark cs = none) ∨ ∃ front behind, mark ∉ behind ∧
      cs = front ++ mark :: behind ∧ splitLast? mark cs = some (front, behind) := by
  by_cases hm : mark ∈ cs
  · obtain ⟨a, b, hab, ha⟩ := List.eq_append_cons_of_mem (List.mem_reverse.2 hm)
    have hcs : cs = b.reverse ++ mark :: a.reverse := by
      rw [← List.reverse_reverse cs, hab]
      simp
    have ha' : mark ∉ a.reverse := fun h => ha (List.mem_reverse.1 h)
    exact Or.inr ⟨b.reverse, a.reverse, ha', hcs, by rw [hcs, splitLast?_append ha']⟩
  · exact Or.inl ⟨hm, by rw [splitLast?, if_neg (by simpa using hm)]⟩

theorem splitElement_bracketed {head inner : List Char} (h : '[' ∉ inner) :
    splitElement (head ++ '[' :: inner ++ [']']) = (head, some (element? inner)) := by
  rw [splitElement, List.getLast?_concat, List.dropLast_concat, splitLast?_append h]
  rfl

theorem splitElement_cases (cs : List Char) :
    splitElement cs = (cs, none) ∨ ∃ head number, splitElement cs = (head, some number) := by
  rw [splitElement]
  split
  · cases splitLast? '[' cs.dropLast with
    | none => exact Or.inl rfl
    | some p => exact Or.inr ⟨p.1, element? p.2, rfl⟩
  · exact Or.inl rfl

theorem splitElement_of_not_mem (h : ']' ∉ cs) : splitElement cs = (cs, none) := by
  rw [splitElement]
  split
  · next hlast => exact absurd (List.mem_of_getLast? hlast) h
  · rfl

theorem splitOutput_numbered (hne : ds ≠ []) (hds : ∀ c ∈ ds, c.isDigit = true) :
    splitOutput (name ++ '.' :: ds) = (name, word? ds) := by
  have hdot : '.' ∉ ds := fun h => ne_of_isDigit (hds _ h) rfl rfl
  have hall : (!ds.isEmpty && ds.all Char.isDigit) = true := by simpa [hne] using hds
  rw [splitOutput, splitLast?_append hdot]
  dsimp only
  rw [if_pos hall]

theorem splitOutput_unnumbered (h : Unnumbered cs) : splitOutput cs = (cs, some 0) := by
  rw [splitOutput]
  rcases splitLast?_cases '.' cs with ⟨-, hsplit⟩ | ⟨front, ds, -, hcs, hsplit⟩
  · rw [hsplit]
  · rw [hsplit]
    dsimp only
    rw [if_neg]
    intro hall
    obtain ⟨hne, hall⟩ : ds ≠ [] ∧ ∀ c ∈ ds, c.isDigit = true := by simpa using hall
    obtain ⟨c, hc, hdigit⟩ := h front ds hcs hne
    rw [hall c hc] at hdigit
    cases hdigit

theorem splitOutput_cases (cs : List Char) :
    Unnumbered cs ∨ ∃ front ds, cs = front ++ '.' :: ds ∧ splitOutput cs = (front, word? ds) := by
  by_cases h : ∃ front ds, cs = front ++ '.' :: ds ∧ ds ≠ [] ∧ ∀ c ∈ ds, c.isDigit = true
  · obtain ⟨front, ds, rfl, hne, hds⟩ := h
    exact Or.inr ⟨front, ds, rfl, splitOutput_numbered hne hds⟩
  · refine Or.inl fun front ds hcs hne => ?_
    by_contra hall
    exact h ⟨front, ds, hcs, hne, by simpa using hall⟩

end Splitting

section Parsing

variable {text : String} {r : Reference}

theorem parse?_eq_some : parse? text = some r ↔ ∃ head,
    splitElement (trim text.toList) = (head, r.element.map some) ∧
      splitOutput head = (r.name.toList, some r.output) ∧
        r.name.toList ≠ [] ∧ '[' ∉ r.name.toList ∧ ']' ∉ r.name.toList := by
  obtain ⟨name, output, element⟩ := r
  rw [parse?]
  rcases splitElement (trim text.toList) with ⟨head, number⟩
  dsimp only
  by_cases hbad : number = some none
  · rw [if_pos hbad]
    refine iff_of_false nofun fun ⟨_, heq, _⟩ => ?_
    rw [Prod.mk.injEq, hbad] at heq
    cases element <;> cases heq.2
  obtain ⟨i, rfl⟩ : ∃ i : Option Nat, number = i.map some := by
    rcases number with _ | _ | i
    · exact ⟨none, rfl⟩
    · exact absurd rfl hbad
    · exact ⟨some i, rfl⟩
  have hjoin : (i.map some).join = i := by cases i <;> rfl
  have hmap : i.map some = element.map some ↔ i = element :=
    (Option.map_injective fun _ _ => Option.some.inj).eq_iff
  rw [if_neg hbad, hjoin]
  rcases hout : splitOutput head with ⟨front, _ | n⟩
  · simp [hout]
  have hname : String.ofList front = name ↔ front = name.toList :=
    ⟨fun h => by rw [← h, String.toList_ofList], fun h => by rw [h, String.ofList_toList]⟩
  have hgood : (front.isEmpty || front.contains '[' || front.contains ']') = true ↔
      ¬ (front ≠ [] ∧ '[' ∉ front ∧ ']' ∉ front) := by
    simp only [Bool.or_eq_true, List.isEmpty_iff, List.contains_iff_mem]
    tauto
  simp only [Prod.mk.injEq, hmap, and_assoc, exists_eq_left', hout, Option.some.injEq]
  by_cases hfront : front ≠ [] ∧ '[' ∉ front ∧ ']' ∉ front
  · rw [if_neg (by rw [hgood, not_not]; exact hfront)]
    simp only [Option.some.injEq, Reference.mk.injEq, hname]
    constructor
    · rintro ⟨rfl, rfl, rfl⟩
      exact ⟨rfl, rfl, rfl, hfront⟩
    · rintro ⟨rfl, hf, rfl, -⟩
      exact ⟨hf, rfl, rfl⟩
  · rw [if_pos (hgood.2 hfront)]
    refine iff_of_false nofun ?_
    rintro ⟨-, hf, -, hbrackets⟩
    exact hfront (hf ▸ hbrackets)

theorem isName_iff_parse? :
    isName text = true ↔ ∃ output, parse? text = some ⟨text, output, none⟩ := by
  rw [isName]
  cases parse? text with
  | none => simp
  | some r =>
    obtain ⟨name, output, element⟩ := r
    cases element <;> simp

/-- Only a text that stays whole is the name of a node. -/
theorem plain_of_isName (h : isName text = true) : Plain text.toList := by
  obtain ⟨output, hparse⟩ := isName_iff_parse?.1 h
  obtain ⟨head, hel, hout, hne, hopening, hclosing⟩ := parse?_eq_some.1 hparse
  have hle := length_trim_le text.toList
  obtain rfl : head = trim text.toList := by
    rcases splitElement_cases (trim text.toList) with heq | ⟨head', number, heq⟩
    · rw [heq] at hel
      exact (Prod.mk.inj hel).1.symm
    · rw [heq] at hel
      cases (Prod.mk.inj hel).2
  -- a text that loses its end would be shorter than itself
  rcases splitOutput_cases (trim text.toList) with hplain | ⟨front, ds, hcs, heq⟩
  · rw [splitOutput_unnumbered hplain] at hout
    have hwhole : trim text.toList = text.toList := (Prod.mk.inj hout).1
    rw [hwhole] at hplain
    exact ⟨hne, hwhole ▸ tight_trim text.toList, hopening, hclosing, hplain⟩
  · rw [heq] at hout
    have hshort := congrArg List.length hcs
    have hfront : front = text.toList := (Prod.mk.inj hout).1
    rw [hfront, List.length_append, List.length_cons] at hshort
    omega

theorem toList_written (name : String) (output element : Option Nat) :
    (written name output element).toList = name.toList ++
      (output.elim [] fun n => '.' :: Nat.toDigits 10 n) ++
        element.elim [] fun i => '[' :: Nat.toDigits 10 i ++ [']'] := by
  cases output <;> cases element <;> simp [written]

/-- Whatever is referred to is read back, with blanks around it or not. -/
theorem parse?_written {name before after : String} (h : Plain name.toList) (hb : Blank before)
    (ha : Blank after) {output element : Option Nat} (ho : ∀ n ∈ output, n < Word.size 64)
    (he : ∀ i ∈ element, i < Word.size 64) :
    parse? (before ++ written name output element ++ after) =
      some ⟨name, output.getD 0, element⟩ := by
  -- the bracket at the end is only that of the element, so without one nothing is cut off
  have hclosing : ∀ output : Option Nat,
      ']' ∉ name.toList ++ output.elim [] fun n => '.' :: Nat.toDigits 10 n := by
    intro output hm
    rcases List.mem_append.1 hm with hm | hm
    · exact h.closing hm
    · cases output with
      | none => cases hm
      | some n =>
        rcases List.mem_cons.1 hm with hm | hm
        · cases hm
        · exact not_mem_digits rfl hm
  have htight : Tight (written name output element).toList := by
    have hdigits : ∀ n, Tight (Nat.toDigits 10 n) := fun n =>
      tight_of_digits fun c hc => isDigit_of_mem hc
    have hnil : Tight [] := ⟨nofun, nofun⟩
    rw [toList_written]
    refine (h.tight.append ?_).append ?_
    · cases output with
      | none => exact hnil
      | some n => exact (tight_singleton rfl).append (hdigits n)
    · cases element with
      | none => exact hnil
      | some i => exact ((tight_singleton rfl).append (hdigits i)).append (tight_singleton rfl)
  have hsplit : splitElement (written name output element).toList =
      (name.toList ++ (output.elim [] fun n => '.' :: Nat.toDigits 10 n), element.map some) := by
    rw [toList_written]
    cases element with
    | none => simpa using splitElement_of_not_mem (hclosing output)
    | some i =>
      have hbracketed : splitElement
          ((name.toList ++ output.elim [] fun n => '.' :: Nat.toDigits 10 n) ++
            '[' :: Nat.toDigits 10 i ++ [']']) = (_, some (element? (Nat.toDigits 10 i))) :=
        splitElement_bracketed (not_mem_digits rfl)
      rw [element?_toDigits (he i rfl)] at hbracketed
      simpa using hbracketed
  have houtput : splitOutput (name.toList ++ (output.elim [] fun n => '.' :: Nat.toDigits 10 n)) =
      (name.toList, some (output.getD 0)) := by
    cases output with
    | none => simpa using splitOutput_unnumbered h.unnumbered
    | some n =>
      have hread : splitOutput (name.toList ++ '.' :: Nat.toDigits 10 n) = (name.toList, word? _) :=
        splitOutput_numbered Nat.toDigits_ne_nil fun c hc => isDigit_of_mem hc
      rwa [word?_toDigits (ho n rfl)] at hread
  refine parse?_eq_some.2 ⟨_, ?_, houtput, h.ne_nil, h.opening, h.closing⟩
  rw [String.toList_append, String.toList_append, trim_surrounded htight hb ha]
  exact hsplit

theorem isName_iff_plain : isName text = true ↔ Plain text.toList := by
  refine ⟨plain_of_isName, fun h => isName_iff_parse?.2 ⟨0, ?_⟩⟩
  have hblank : Blank "" := nofun
  have hread : parse? ("" ++ written text none none ++ "") = some ⟨text, 0, none⟩ :=
    parse?_written h hblank hblank nofun nofun
  simpa [written] using hread

end Parsing

end Reference

/-- A name is accepted if it is plain and free. -/
theorem Draft.claim_eq_ok_iff {event : Nat} {name : String} {d : Draft} :
    (claim event name d).1 = .ok () ↔
      Reference.Plain name.toList ∧ d.find? event name = none := by
  rw [claim_eq, looking, claimed, ← Reference.isName_iff_plain, ← Option.not_isSome_iff_eq_none]
  cases Reference.isName name <;> cases (d.find? event name).isSome <;>
    simp [throw, throwThe, MonadExceptOf.throw, pure, Except.pure]

/-- A text that refers to a node under a name that was accepted for it: to one of its outputs, the
first one unless another is given, and to one element of that output or to all. -/
structure Address where
  name : String
  output : Option Nat
  element : Option Nat
  before : String
  after : String
  accepted : ∃ event d, (Draft.claim event name d).1 = .ok ()
  output_lt : ∀ n ∈ output, n < Word.size 64
  element_lt : ∀ i ∈ element, i < Word.size 64
  before_blank : Reference.Blank before
  after_blank : Reference.Blank after

namespace Address

def text (a : Address) : String :=
  a.before ++ Reference.written a.name a.output a.element ++ a.after

def target (a : Address) : Reference := ⟨a.name, a.output.getD 0, a.element⟩

theorem parse?_text (a : Address) : Reference.parse? a.text = some a.target := by
  obtain ⟨event, d, h⟩ := a.accepted
  exact Reference.parse?_written (Draft.claim_eq_ok_iff.1 h).1 a.before_blank a.after_blank
    a.output_lt a.element_lt

/-- The text of an address is read back as what it refers to, so no other output, element or node
has the same text. -/
theorem read_back (a : Address) : Reference.parse? a.text = some a.target ∧
    ∀ b : Address, b.target ≠ a.target → b.text ≠ a.text := by
  refine ⟨a.parse?_text, fun b hne htext => hne ?_⟩
  have hb := b.parse?_text
  rw [htext, a.parse?_text] at hb
  exact (Option.some.inj hb).symm

/-- A name that ends with a dot, with the largest number there is for an element. -/
def dotted : Address where
  name := "a."
  output := some 5
  element := some 18446744073709551615
  before := "\t"
  after := "  "
  accepted := ⟨0, Draft.new .standard 0, by decide +kernel⟩
  output_lt := by decide
  element_lt := by decide
  before_blank := by decide
  after_blank := by decide

theorem read_back_dotted :
    Reference.parse? "\ta..5[18446744073709551615]  " =
      some ⟨"a.", 5, some 18446744073709551615⟩ ∧
    ∀ b : Address, b.target ≠ ⟨"a.", 5, some 18446744073709551615⟩ →
      b.text ≠ "\ta..5[18446744073709551615]  " := by
  have htext : dotted.text = "\ta..5[18446744073709551615]  " := by decide +kernel
  rw [← htext]
  exact read_back dotted

end Address

end Readout
