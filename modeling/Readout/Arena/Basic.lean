import Readout.Arena.Store
import Readout.Error
import Readout.Word

/-!
# Arena

All values of one analysis live in a single arena of fixed size. Blocks are handed out one
behind the other and are only given back together, by a reset, which starts a new generation.
Objects and teardown actions are kept beside the blocks; a reset disposes of them in reverse
order of their registration. A block that does not fit leaves the arena as it was.
-/
namespace Readout

/-- Something that a reset has to dispose of: a stored word or a numbered action. -/
inductive Entry
  | object (word : UInt64)
  | teardown (action : Nat)
deriving DecidableEq

structure Arena where
  capacity : Nat
  used : Nat
  generation : Nat
  store : Store
  /-- The entry registered last comes first. -/
  entries : List Entry

/-- An object is named by its place among the entries and by the generation that made it. -/
structure ObjectHandle where
  index : Nat
  generation : Nat
deriving DecidableEq

/-- Computations that take blocks. What was taken before a failure stays taken. -/
abbrev Alloc := ExceptT Error (StateM Arena)

namespace Arena

def valueSize : Nat := 8
def spanAlignment : Nat := 32
def defaultCapacity : Nat := 4 * 1024 * 1024

/-- Spans address at most that many bytes. -/
def maxCapacity : Nat := (Word.size 32 - 1) * valueSize

/-- The capacity is rounded down to whole values. -/
def new (bytes : Nat) : Arena :=
  let slots := min bytes maxCapacity / valueSize
  ⟨slots * valueSize, 0, 0, Store.new slots, []⟩

def free (a : Arena) : Nat := a.capacity - a.used

def isPowerOfTwo (n : Nat) : Bool := n = Word.size n.log2

/-- The least multiple of `align` from `n` on. -/
def alignUp (n align : Nat) : Nat := (n + (align - 1)) / align * align

/-- The offset of a new block and the arena behind it. -/
def place (a : Arena) (size align : Nat) : Except Error (Nat × Arena) :=
  let align := max align 1
  if !isPowerOfTwo align then throw (.build (.alignment align))
  else
    let start := alignUp a.used align
    if start + size ≤ a.capacity then return (start, { a with used := start + size })
    else throw (.outOfMemory size (a.capacity - start))

def pushSize (size align : Nat) : Alloc Nat := do
  let (start, a) ← (← get).place size align
  set a
  return start

def pushFilled (length : Nat) (v : Value) : Alloc Span := do
  let bytes := length * valueSize
  if Word.size 64 ≤ bytes then
    throw (.outOfMemory (Word.size 64 - 1) (← get).free)
  let start ← pushSize bytes spanAlignment
  match Span.make? (start / valueSize) length with
  | none => throw (.outOfMemory bytes (← get).free)
  | some p =>
    modify fun ⟨capacity, used, generation, store, entries⟩ =>
      ⟨capacity, used, generation, store.fill p v, entries⟩
    return p

def pushSpan (length : Nat) : Alloc Span := pushFilled length Value.zero

def values (p : Span) : Alloc (List Value) := do return (← get).store.values p

def value (p : Span) (i : Nat) : Alloc Value := do return (← get).store.get p i

def assign (p : Span) (vs : List Value) : Alloc Unit :=
  modify fun a => { a with store := a.store.assign p vs }

/-- Keeps an object of so many bytes, which `word` stands for. -/
def pushObjectOf (size align : Nat) (word : UInt64) : Alloc ObjectHandle := do
  let _ ← pushSize size align
  let a ← get
  set { a with entries := .object word :: a.entries }
  return ⟨a.entries.length, a.generation⟩

def pushObject (word : UInt64) : Alloc ObjectHandle := pushObjectOf 8 8 word

def pushTeardown (a : Arena) (action : Nat) : Arena :=
  { a with entries := .teardown action :: a.entries }

/-- Place of entry `index` in the list that starts with the newest entry. -/
def position? (a : Arena) (h : ObjectHandle) : Option Nat :=
  if h.generation = a.generation ∧ h.index < a.entries.length then
    some (a.entries.length - 1 - h.index)
  else none

def object? (a : Arena) (h : ObjectHandle) : Option UInt64 := do
  match a.entries[← a.position? h]? with
  | some (.object word) => some word
  | _ => none

/-- Rewrites an object, which a stale handle does not reach. -/
def modifyObject (a : Arena) (h : ObjectHandle) (f : UInt64 → UInt64) : Arena :=
  match a.position? h, a.object? h with
  | some i, some word => { a with entries := a.entries.set i (.object (f word)) }
  | _, _ => a

def reset (a : Arena) : List Entry × Arena :=
  (a.entries, { a with used := 0, generation := a.generation + 1, entries := [] })

def describe (a : Arena) : String :=
  s!"Arena \x7b capacity: {a.capacity}, used: {a.used}, generation: {a.generation}, " ++
    s!"entries: {a.entries.length} \x7d"

end Arena

def ObjectHandle.text (h : ObjectHandle) : String :=
  s!"ObjectHandle({h.index}@gen{h.generation})"

end Readout
