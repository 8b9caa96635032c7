/-!
# Condition bits

The conditions of an event share a fixed set of bits. A bit past the end reads as false and is
never written.
-/
namespace Readout

structure ConditionBits where
  bits : List Bool
deriving DecidableEq

namespace ConditionBits

def new (length : Nat) : ConditionBits := ⟨List.replicate length false⟩

def length (b : ConditionBits) : Nat := b.bits.length

def set (b : ConditionBits) (i : Nat) (v : Bool) : ConditionBits := ⟨b.bits.set i v⟩

def test (b : ConditionBits) (i : Nat) : Bool := b.bits.getD i false

def clear (b : ConditionBits) : ConditionBits := new b.length

def count (b : ConditionBits) : Nat := b.bits.count true

/-- The positions of the bits that are set. -/
def ones (b : ConditionBits) : List Nat := (List.range b.length).filter b.test

theorem length_set (b : ConditionBits) (i : Nat) (v : Bool) : (b.set i v).length = b.length := by
  simp [length, set]

theorem test_set (b : ConditionBits) (i j : Nat) (v : Bool) (h : i < b.length) :
    (b.set i v).test j = if i = j then v else b.test j := by
  rw [length] at h
  by_cases hij : i = j
  · subst hij
    simp [test, set, h]
  · simp [test, set, List.getElem?_set_ne hij, hij]

theorem test_of_length_le (b : ConditionBits) {i : Nat} (h : b.length ≤ i) : b.test i = false := by
  rw [length] at h
  simp [test, List.getElem?_eq_none h]

theorem test_new (length i : Nat) : (new length).test i = false := by
  simp only [test, new, List.getD_eq_getElem?_getD, List.getElem?_replicate]
  split <;> rfl

theorem test_clear (b : ConditionBits) (i : Nat) : b.clear.test i = false := test_new b.length i

end ConditionBits

end Readout
