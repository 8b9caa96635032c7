import Readout.Proofs.Arena.Ledger

/-!
# Generations of an arena

A reset ends a generation: it disposes of the objects and the teardown actions that were registered
since the one before, the latest first, each object with the value that was last written to it
(`generations_settled`). A handle reaches its own object until then and nothing afterwards, even if
its place is taken again.
-/
namespace Readout

/-- An object with its word rewritten. -/
def Entry.rewrite (f : UInt64 → UInt64) : Entry → Entry
  | object word => .object (f word)
  | teardown action => .teardown action

namespace Arena

/-- What can be asked of an arena and of the objects in it. -/
inductive Use
  | request (r : Request)
  | modify (h : ObjectHandle) (f : UInt64 → UInt64)

namespace Use

def apply (l : Ledger) : Use → Ledger
  | request r => l.apply r
  | modify h f => { l with arena := l.arena.modifyObject h f }

def isReset : Use → Bool
  | request .reset => true
  | _ => false

/-- The handle that a use is answered with, if it is one. -/
def answer? (a : Arena) : Use → Option ObjectHandle
  | request (.object size align word) => (pushObjectOf size align word a).1.toOption
  | _ => none

/-- What a use makes of the word that a handle stands for. -/
def write (h : ObjectHandle) (word : UInt64) : Use → UInt64
  | modify h' f => if h' = h then f word else word
  | request _ => word

end Use

/-- The uses of one generation in their order, each with its answer. -/
abbrev Journal := List (Use × Option ObjectHandle)

/-- What a generation has been given to keep, in the order of registration, each object with the
word that was written last. -/
def registered : Journal → List Entry
  | [] => []
  | (.request (.object _ _ word), some h) :: rest =>
    .object (rest.foldl (fun word x => x.1.write h word) word) :: registered rest
  | (.request (.teardown action), _) :: rest => .teardown action :: registered rest
  | _ :: rest => registered rest

/-- The generations of an arena that is used and then dropped: the journal of each, and what it was
ended with. -/
def generations (l : Ledger) (journal : Journal) : List Use → List (Journal × List Entry)
  | [] => [(journal, l.arena.reset.1)]
  | u :: us =>
    if u.isReset then (journal, l.arena.reset.1) :: generations (u.apply l) [] us
    else generations (u.apply l) (journal ++ [(u, u.answer? l.arena)]) us

theorem modifyHead_nil_append {α : Type} (xss : List (List α)) :
    xss.modifyHead ([] ++ ·) = xss := congrFun List.modifyHead_id xss

theorem map_journal_generations (l : Ledger) (j : Journal) (uses : List Use) :
    (generations l j uses).map (fun g => g.1.map Prod.fst) =
      (uses.splitOnP Use.isReset).modifyHead (j.map Prod.fst ++ ·) := by
  induction uses generalizing l j with
  | nil => simp [generations]
  | cons u uses ih =>
    rw [generations, List.splitOnP_cons_eq_if_modifyHead]
    split
    · rw [List.map_cons, ih, List.map_nil, modifyHead_nil_append, List.modifyHead_cons,
        List.append_nil]
    · rw [ih, List.modifyHead_modifyHead]
      simp [Function.comp_def]

section Steps

/-- The objects of a journal are named by their places, counted from `k`. -/
def Numbered (generation : Nat) : Nat → Journal → Prop
  | _, [] => True
  | k, (.request (.object _ _ _), some h) :: rest =>
    h = ⟨k, generation⟩ ∧ Numbered generation (k + 1) rest
  | k, (.request (.teardown _), _) :: rest => Numbered generation (k + 1) rest
  | k, _ :: rest => Numbered generation k rest

/-- Entries in the order of registration, counted from `k`, after the object of a handle of this
generation is rewritten. -/
def rewritten (generation k : Nat) (h : ObjectHandle) (f : UInt64 → UInt64) (es : List Entry) :
    List Entry :=
  if h.generation = generation ∧ k ≤ h.index then es.modify (h.index - k) (Entry.rewrite f) else es

theorem rewritten_cons (generation k : Nat) (h : ObjectHandle) (f : UInt64 → UInt64) (e : Entry)
    (es : List Entry) : rewritten generation k h f (e :: es) =
      (if h = ⟨k, generation⟩ then e.rewrite f else e) :: rewritten generation (k + 1) h f es := by
  obtain ⟨index, g⟩ := h
  simp only [rewritten, ObjectHandle.mk.injEq]
  by_cases hg : g = generation
  · rcases Nat.lt_trichotomy index k with hlt | rfl | hlt
    · simp [hg, Nat.not_le.2 hlt, Nat.ne_of_lt hlt, Nat.not_le.2 (Nat.lt_succ_of_lt hlt)]
    · rw [if_pos ⟨hg, Nat.le_refl _⟩, if_pos ⟨rfl, hg⟩, if_neg (by omega), Nat.sub_self,
        List.modify_zero_cons]
    · have hsucc : index - k = index - (k + 1) + 1 := by omega
      rw [if_pos ⟨hg, Nat.le_of_lt hlt⟩, if_neg (by omega), if_pos ⟨hg, hlt⟩, hsucc,
        List.modify_succ_cons]
  · simp [hg]

theorem reverse_modify_reverse {es : List Entry} {i : Nat} (hi : i < es.length)
    (f : Entry → Entry) : (es.reverse.modify i f).reverse = es.modify (es.length - 1 - i) f := by
  refine List.ext_getElem (by simp) fun k hk _ => ?_
  simp only [List.length_reverse, List.length_modify] at hk
  have hback : es.length - 1 - (es.length - 1 - k) = k := by omega
  have hplace : i = es.length - 1 - k ↔ es.length - 1 - i = k := by omega
  simp only [List.getElem_reverse, List.getElem_modify, List.length_modify, List.length_reverse,
    hback, hplace]

theorem modifyObject_eq (a : Arena) (h : ObjectHandle) (f : UInt64 → UInt64) :
    a.modifyObject h f =
      { a with entries := (rewritten a.generation 0 h f a.entries.reverse).reverse } := by
  rw [modifyObject, object?, position?, rewritten]
  by_cases hgeneration : h.generation = a.generation
  · by_cases hindex : h.index < a.entries.length
    · have hlt : a.entries.length - 1 - h.index < a.entries.length := by omega
      simp only [hgeneration, hindex, and_self, if_true, Nat.zero_le, Nat.sub_zero,
        reverse_modify_reverse hindex, Option.bind_eq_bind, Option.bind_some,
        List.getElem?_eq_getElem hlt]
      rw [List.modify_eq_set_getElem?, List.getElem?_eq_getElem hlt]
      cases hentry : a.entries[a.entries.length - 1 - h.index] with
      | object word => rfl
      | teardown action =>
        have hsame := List.set_getElem_self hlt
        rw [hentry] at hsame
        simp [Entry.rewrite, hsame]
    · have hend : a.entries.reverse.modify h.index (Entry.rewrite f) = a.entries.reverse := by
        refine List.modify_eq_self ?_
        simpa using hindex
      simp [hgeneration, hindex, hend]
  · simp [hgeneration]

theorem pushFilled_keeps (length : Nat) (v : Value) (a : Arena) :
    (pushFilled length v a).2.generation = a.generation ∧
      (pushFilled length v a).2.entries = a.entries := by
  rw [pushFilled_apply]
  split
  · exact ⟨rfl, rfl⟩
  · rcases place_cases (length * valueSize) spanAlignment a with ⟨-, -, hok⟩ | ⟨-, e, he⟩
    · rw [hok]
      dsimp only
      split <;> exact ⟨rfl, rfl⟩
    · rw [he]
      exact ⟨rfl, rfl⟩

/-- What a use that is no reset does to the entries. -/
inductive Entered (a b : Arena) : Use → Option ObjectHandle → Prop
  | object {size align : Nat} {word : UInt64} (h : b.entries = .object word :: a.entries) :
    Entered a b (.request (.object size align word)) (some ⟨a.entries.length, a.generation⟩)
  | teardown {action : Nat} (h : b.entries = .teardown action :: a.entries) :
    Entered a b (.request (.teardown action)) none
  | modify {h : ObjectHandle} {f : UInt64 → UInt64}
    (he : b.entries = (rewritten a.generation 0 h f a.entries.reverse).reverse) :
    Entered a b (.modify h f) none
  | other {r : Request} (h : b.entries = a.entries) (hr : ∀ action, r ≠ .teardown action) :
    Entered a b (.request r) none

theorem Use.apply_entered (l : Ledger) {u : Use} (hu : u.isReset = false) :
    (u.apply l).arena.generation = l.arena.generation ∧
      Entered l.arena (u.apply l).arena u (u.answer? l.arena) := by
  cases u with
  | modify h f =>
    rw [Use.apply, modifyObject_eq]
    exact ⟨rfl, .modify rfl⟩
  | request r =>
    cases r with
    | bytes size align =>
      rw [Use.apply, Ledger.apply]
      rcases pushSize_cases size align l.arena with ⟨-, -, hok⟩ | ⟨-, e, he⟩
      · rw [hok]
        exact ⟨rfl, .other rfl (by simp)⟩
      · rw [he]
        exact ⟨rfl, .other rfl (by simp)⟩
    | vector length v =>
      have hkeeps := pushFilled_keeps length v l.arena
      rw [Use.apply, Ledger.apply]
      rcases hpush : pushFilled length v l.arena with ⟨e | p, b⟩
      all_goals
        rw [hpush] at hkeeps
        exact ⟨hkeeps.1, .other hkeeps.2 (by simp)⟩
    | object size align word =>
      have happly := pushObjectOf_apply size align word l.arena
      rw [Use.apply, Ledger.apply, answer?]
      rcases pushSize_cases size align l.arena with ⟨-, -, hok⟩ | ⟨-, e, he⟩
      · rw [hok] at happly
        rw [happly]
        exact ⟨rfl, .object rfl⟩
      · rw [he] at happly
        rw [happly]
        exact ⟨rfl, .other rfl (by simp)⟩
    | teardown action => exact ⟨rfl, .teardown rfl⟩
    | write p vs => exact ⟨rfl, .other rfl (by simp)⟩
    | reset => cases hu

theorem registered_request (j : Journal) (r : Request) (answer : Option ObjectHandle) :
    registered (j ++ [(.request r, answer)]) =
      registered j ++ registered [(.request r, answer)] := by
  fun_induction registered j with
  | case1 => rfl
  | case2 size align word h rest ih =>
    rw [List.cons_append, registered, ih, List.foldl_append]
    rfl
  | case3 action answer rest ih =>
    rw [List.cons_append, registered, ih]
    rfl
  | case4 x rest hobject hteardown ih =>
    rw [List.cons_append, registered, ih]
    all_goals assumption

theorem registered_modify {generation k : Nat} {j : Journal} (hj : Numbered generation k j)
    (h : ObjectHandle) (f : UInt64 → UInt64) :
    registered (j ++ [(.modify h f, none)]) = rewritten generation k h f (registered j) := by
  fun_induction Numbered generation k j with
  | case1 k =>
    simp [registered, rewritten]
  | case2 k size align word o rest ih =>
    obtain ⟨rfl, hj⟩ := hj
    rw [List.cons_append, registered, registered, ih hj, List.foldl_append, rewritten_cons]
    simp only [List.foldl_cons, List.foldl_nil, Use.write]
    split <;> rfl
  | case3 k action answer rest ih =>
    rw [List.cons_append, registered, registered, ih hj, rewritten_cons, Entry.rewrite, ite_self]
  | case4 k x rest hobject hteardown ih =>
    rw [List.cons_append, registered, registered, ih hj]
    all_goals assumption

theorem numbered_snoc {generation k : Nat} {j : Journal} {x : Use × Option ObjectHandle} :
    Numbered generation k (j ++ [x]) ↔
      Numbered generation k j ∧ Numbered generation (k + (registered j).length) [x] := by
  fun_induction Numbered generation k j with
  | case1 k => simp [registered]
  | case2 k size align word o rest ih =>
    rw [List.cons_append, Numbered, ih, registered, List.length_cons, and_assoc, Nat.add_assoc,
      Nat.add_comm 1]
  | case3 k action answer rest ih =>
    rw [List.cons_append, Numbered, ih, registered, List.length_cons, Nat.add_assoc, Nat.add_comm 1]
  | case4 k x rest hobject hteardown ih =>
    rw [List.cons_append, Numbered, ih, registered]
    all_goals assumption

/-- An arena keeps what its generation has registered. -/
structure Keeps (a : Arena) (j : Journal) : Prop where
  entries_eq : a.entries = (registered j).reverse
  numbered : Numbered a.generation 0 j

theorem Keeps.apply {l : Ledger} {j : Journal} (h : l.arena.Keeps j) {u : Use}
    (hu : u.isReset = false) : (u.apply l).arena.Keeps (j ++ [(u, u.answer? l.arena)]) := by
  obtain ⟨hgeneration, hentered⟩ := u.apply_entered l hu
  have hlength : l.arena.entries.length = (registered j).length := by
    rw [h.entries_eq, List.length_reverse]
  have hsnoc : ∀ x, Numbered l.arena.generation (registered j).length [x] →
      Numbered (u.apply l).arena.generation 0 (j ++ [x]) := by
    intro x hx
    rw [hgeneration, numbered_snoc, Nat.zero_add]
    exact ⟨h.numbered, hx⟩
  generalize u.answer? l.arena = answer at hentered ⊢
  cases hentered with
  | object he =>
    refine ⟨?_, hsnoc _ ⟨by rw [hlength], trivial⟩⟩
    rw [he, h.entries_eq, registered_request, List.reverse_append]
    rfl
  | teardown he =>
    refine ⟨?_, hsnoc _ trivial⟩
    rw [he, h.entries_eq, registered_request, List.reverse_append]
    rfl
  | modify he =>
    refine ⟨?_, hsnoc _ trivial⟩
    rw [he, h.entries_eq, List.reverse_reverse, registered_modify h.numbered]
  | @other r he hr =>
    refine ⟨?_, hsnoc _ ?_⟩
    · rw [he, h.entries_eq, registered_request, List.reverse_append]
      cases r with
      | teardown action => exact absurd rfl (hr action)
      | _ => rfl
    · cases r with
      | teardown action => exact absurd rfl (hr action)
      | _ => trivial

theorem Use.apply_reset (l : Ledger) {u : Use} (hu : u.isReset = true) :
    (u.apply l).arena = l.arena.reset.2 := by
  cases u with
  | modify h f => cases hu
  | request r =>
    cases r with
    | reset => rfl
    | _ => cases hu

theorem generations_keep {l : Ledger} {j : Journal} (h : l.arena.Keeps j) (uses : List Use) :
    ∀ g ∈ generations l j uses, g.2 = (registered g.1).reverse := by
  induction uses generalizing l j with
  | nil => exact List.forall_mem_singleton.2 h.entries_eq
  | cons u uses ih =>
    rw [generations]
    cases hu : u.isReset with
    | true =>
      have hnext : (u.apply l).arena.Keeps [] := by
        rw [u.apply_reset l hu]
        exact ⟨rfl, trivial⟩
      exact List.forall_mem_cons.2 ⟨h.entries_eq, ih hnext⟩
    | false => exact ih (h.apply hu)

theorem object?_eq_some {a : Arena} {h : ObjectHandle} {word : UInt64} :
    a.object? h = some word ↔
      h.generation = a.generation ∧ a.entries.reverse[h.index]? = some (.object word) := by
  rw [object?, position?]
  by_cases hat : h.generation = a.generation ∧ h.index < a.entries.length
  · simp only [if_pos hat, Option.bind_eq_bind, Option.bind_some, List.getElem?_reverse hat.2]
    constructor
    · intro ho
      split at ho
      · next heq =>
        exact ⟨hat.1, heq.trans (congrArg (some <| Entry.object ·) (Option.some.inj ho))⟩
      · cases ho
    · rintro ⟨-, hentry⟩
      rw [hentry]
  · simp only [if_neg hat, Option.bind_eq_bind, Option.bind_none]
    constructor
    · intro ho
      cases ho
    · rintro ⟨hgeneration, hentry⟩
      have hlt := (List.getElem?_eq_some_iff.1 hentry).1
      exact absurd ⟨hgeneration, by simpa using hlt⟩ hat

/-- A handle reaches the same object after a use that is no reset, rewritten if the use has
written through this handle. -/
theorem object?_apply {l : Ledger} {h : ObjectHandle} {word : UInt64}
    (ho : l.arena.object? h = some word) {u : Use} (hu : u.isReset = false) :
    (u.apply l).arena.object? h = some (u.write h word) := by
  obtain ⟨hgeneration, hentered⟩ := u.apply_entered l hu
  obtain ⟨hh, hentry⟩ := object?_eq_some.1 ho
  have hlt := (List.getElem?_eq_some_iff.1 hentry).1
  refine object?_eq_some.2 ⟨hh.trans hgeneration.symm, ?_⟩
  generalize u.answer? l.arena = answer at hentered
  cases hentered with
  | object he => rw [he, List.reverse_cons, List.getElem?_append_left hlt, hentry, Use.write]
  | teardown he => rw [he, List.reverse_cons, List.getElem?_append_left hlt, hentry, Use.write]
  | @modify h' f he =>
    rw [he, List.reverse_reverse, rewritten, Use.write]
    by_cases hh' : h'.generation = l.arena.generation
    · have hsame : h'.index = h.index ↔ h' = h := by
        refine ⟨fun hindex => ?_, congrArg ObjectHandle.index⟩
        obtain ⟨index, generation⟩ := h'
        obtain ⟨index', generation'⟩ := h
        exact congrArg₂ ObjectHandle.mk hindex (hh'.trans hh.symm)
      simp only [if_pos, hh', Nat.zero_le, and_self, Nat.sub_zero, List.getElem?_modify, hentry,
        hsame, Option.map_eq_map, Option.map_some]
      split <;> rfl
    · have hne : h' ≠ h := fun heq => hh' (heq ▸ hh)
      rw [if_neg fun hk => hh' hk.1, if_neg hne, hentry]
  | other he hr => rw [he, hentry, Use.write]

theorem generation_le_apply (l : Ledger) (u : Use) :
    l.arena.generation ≤ (u.apply l).arena.generation := by
  cases hu : u.isReset with
  | true =>
    rw [u.apply_reset l hu]
    exact Nat.le_succ _
  | false => exact Nat.le_of_eq (u.apply_entered l hu).1.symm

theorem object?_stale {l : Ledger} {h : ObjectHandle} (hh : h.generation < l.arena.generation)
    (uses : List Use) : (uses.foldl Use.apply l).arena.object? h = none := by
  induction uses generalizing l with
  | nil =>
    refine Option.eq_none_iff_forall_ne_some.2 fun word ho => ?_
    exact absurd (object?_eq_some.1 ho).1 (Nat.ne_of_lt hh)
  | cons u uses ih => exact ih (Nat.lt_of_lt_of_le hh (generation_le_apply l u))

theorem object?_foldl {l : Ledger} {h : ObjectHandle} {word : UInt64}
    (ho : l.arena.object? h = some word) (later : List Use) :
    (later.foldl Use.apply l).arena.object? h =
      if later.any Use.isReset then none else some (later.foldl (Use.write h) word) := by
  induction later generalizing l word with
  | nil => exact ho
  | cons u later ih =>
    rw [List.foldl_cons, List.foldl_cons, List.any_cons]
    cases hu : u.isReset with
    | true =>
      refine object?_stale ?_ later
      rw [u.apply_reset l hu, (object?_eq_some.1 ho).1]
      exact Nat.lt_succ_self _
    | false => exact ih (object?_apply ho hu)

end Steps

/-- Each generation disposes of what it has registered, the latest first, and of nothing else; it
has been used as between two resets. An object is reached by its handle with the word that was
written last through this handle, and after a reset it is not reached any more. -/
theorem generations_settled (bytes : Nat) (uses : List Use) :
    (∀ g ∈ generations (Ledger.new bytes) [] uses, g.2 = (registered g.1).reverse) ∧
      (generations (Ledger.new bytes) [] uses).map (fun g => g.1.map Prod.fst) =
        uses.splitOnP Use.isReset ∧
      ∀ (before later : List Use) (size align : Nat) (word : UInt64) (h : ObjectHandle),
        let l := before.foldl Use.apply (Ledger.new bytes)
        let u := Use.request (.object size align word)
        u.answer? l.arena = some h →
          ((u :: later).foldl Use.apply l).arena.object? h =
            if later.any Use.isReset then none else some (later.foldl (Use.write h) word) := by
  have hnew : (Ledger.new bytes).arena.Keeps [] := ⟨rfl, trivial⟩
  refine ⟨generations_keep hnew uses, ?_, ?_⟩
  · rw [map_journal_generations, List.map_nil, modifyHead_nil_append]
  · intro before later size align word h l u hanswer
    obtain ⟨hgeneration, hentered⟩ := (Use.request (.object size align word)).apply_entered l rfl
    rw [show Use.answer? _ _ = some h from hanswer] at hentered
    cases hentered with
    | object he =>
      refine object?_foldl (object?_eq_some.2 ⟨hgeneration.symm, ?_⟩) later
      rw [he, List.reverse_cons]
      simp

open Use in
/-- The second object takes the place of the first one, which was rewritten before. A third one
does not fit. -/
theorem generations_settled_reused :
    let l := Ledger.new 64
    let u := request (.object 8 8 1)
    let later := [request (.teardown 5), modify ⟨0, 0⟩ (· + 41), request (.object 99 8 3),
      request .reset, request (.object 8 8 7)]
    u.answer? l.arena = some ⟨0, 0⟩ ∧ ((u :: later).foldl Use.apply l).arena.object? ⟨0, 0⟩ = none ∧
      ((u :: later).foldl Use.apply l).arena.object? ⟨0, 1⟩ = some 7 ∧
      (generations l [] (u :: later)).map Prod.snd =
        [[.teardown 5, .object 42], [.object 7]] := by
  intro l u later
  have hanswer : u.answer? l.arena = some ⟨0, 0⟩ := by decide +kernel
  obtain ⟨-, -, hreach⟩ := generations_settled 64 []
  exact ⟨hanswer, hreach [] later 8 8 1 ⟨0, 0⟩ hanswer, by decide +kernel, by decide +kernel⟩

end Arena

end Readout
