import Readout.Text.Quoted
import Readout.Value.Text
import Readout.Word

/-!
# Stores and spans

A store holds a fixed number of values. Slots that were never written hold zero and take no
room. A span is a run of slots; it is only a handle and its values are read and written through
the store. A write inside the store is read back and changes no other slot (`read_write`); one past
its end is dropped (`write_of_slots_le`).
-/
namespace Readout

structure Store where
  slots : Nat
  cells : Array Value

namespace Store

def new (slots : Nat) : Store := ⟨slots, #[]⟩

def read (s : Store) (i : Nat) : Value := s.cells.getD i Value.zero

/-- Room for slots up to `n`, the new ones zero. -/
def extend (cells : Array Value) (n : Nat) : Array Value :=
  cells ++ Array.replicate (n - cells.size) Value.zero

def write : Store → Nat → Value → Store
  | ⟨slots, cells⟩, i, v =>
    if i < slots then
      if i < cells.size then ⟨slots, cells.set! i v⟩ else ⟨slots, (extend cells i).push v⟩
    else ⟨slots, cells⟩

def writeList (s : Store) (start : Nat) : List Value → Store
  | [] => s
  | v :: rest => writeList (s.write start v) (start + 1) rest

theorem read_def (s : Store) (i : Nat) : s.read i = (s.cells[i]?).getD Value.zero := by
  rw [read, Array.getD_eq_getD_getElem?]

theorem size_extend (cells : Array Value) {n : Nat} (h : cells.size ≤ n) :
    (extend cells n).size = n := by
  simp [extend]
  omega

theorem getD_extend (cells : Array Value) (n i : Nat) :
    ((extend cells n)[i]?).getD Value.zero = (cells[i]?).getD Value.zero := by
  rw [extend, Array.getElem?_append]
  split
  · rfl
  · next h =>
    have hi : cells[i]? = none := Array.getElem?_eq_none (by omega)
    rw [hi, Array.getElem?_replicate]
    split <;> rfl

theorem slots_write (s : Store) (i : Nat) (v : Value) : (s.write i v).slots = s.slots := by
  obtain ⟨slots, cells⟩ := s
  rw [write]
  repeat' split
  all_goals rfl

theorem read_write (s : Store) {i : Nat} (j : Nat) (v : Value) (h : i < s.slots) :
    (s.write i v).read j = if i = j then v else s.read j := by
  obtain ⟨slots, cells⟩ := s
  have h : i < slots := h
  rw [write, if_pos h]
  by_cases hi : i < cells.size
  · rw [if_pos hi, read_def, read_def]
    by_cases hij : i = j
    · subst hij
      simp [hi]
    · simp [hij]
  · rw [if_neg hi, read_def, read_def, Array.getElem?_push, size_extend cells (by omega)]
    by_cases hij : i = j
    · simp [hij]
    · rw [if_neg (Ne.symm hij), if_neg hij]
      exact getD_extend cells i j

/-- A write past the end is dropped. -/
theorem write_of_slots_le (s : Store) {i : Nat} (v : Value) (h : s.slots ≤ i) :
    s.write i v = s := by
  obtain ⟨slots, cells⟩ := s
  exact if_neg (Nat.not_lt.2 h)

end Store

structure Span where
  offset : Nat
  length : Nat
deriving DecidableEq, Inhabited

namespace Span

/-- Offsets and ends are 32-bit numbers. -/
def make? (offset length : Nat) : Option Span :=
  if offset + length < Word.size 32 then some ⟨offset, length⟩ else none

def element? (p : Span) (i : Nat) : Option Span :=
  if i < p.length then make? (p.offset + i) 1 else none

def stop (p : Span) : Nat := p.offset + p.length

end Span

namespace Store

def get (s : Store) (p : Span) (i : Nat) : Value := s.read (p.offset + i)

def set (s : Store) (p : Span) (i : Nat) (v : Value) : Store :=
  if i < p.length then s.write (p.offset + i) v else s

def values (s : Store) (p : Span) : List Value := (List.range p.length).map (s.get p)

/-- Overwrites a span from its start; values past its end are dropped. -/
def assign (s : Store) (p : Span) (vs : List Value) : Store :=
  s.writeList p.offset (vs.take p.length)

def fillFrom (v : Value) (s : Store) (start : Nat) : Nat → Store
  | 0 => s
  | n + 1 => fillFrom v (s.write start v) (start + 1) n

def fill (s : Store) (p : Span) (v : Value) : Store := fillFrom v s p.offset p.length

def invalidate (s : Store) (p : Span) : Store := s.fill p Value.invalid

def increment (s : Store) (p : Span) (i : Nat) : Store := s.set p i (s.get p i + Value.one)

/-- One line per element, its index at least two characters wide. -/
def elementText (i : Nat) (v : Value) : String :=
  let index := toString i
  "  [" ++ (if index.length < 2 then " " else "") ++ index ++ "] " ++
    (if v.isValid then v.text
      else "invalid, payload=0x" ++ Quoted.hexadecimal v.payload.toNat) ++ "\n"

def format (s : Store) (p : Span) : String :=
  s!"pv offset={p.offset}, size={p.length}\n" ++
    String.join ((List.range p.length).map fun i => elementText i (s.get p i))

end Store

end Readout
