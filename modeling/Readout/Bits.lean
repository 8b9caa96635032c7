/-!
# Bit fields

A mask selects bits of a word. Gathering packs the selected bits into the low end of the result,
scattering puts the low bits of a word back under the mask. Both take the mask apart from its
lowest set bit upwards, so they take one step per selected bit.
-/
namespace Readout.Bits

def lowest (m : UInt32) : UInt32 := m &&& (0 - m)

/-- The mask without its lowest set bit. -/
def rest (m : UInt32) : UInt32 := m &&& (m - 1)

theorem rest_lt {m : UInt32} (h : m ≠ 0) : (rest m).toNat < m.toNat := by
  have hm : 0 < m.toNat := Nat.pos_of_ne_zero fun h0 => h (UInt32.toNat_inj.1 (by simpa using h0))
  have hle : (1 : UInt32) ≤ m := UInt32.le_iff_toNat_le.2 hm
  have h1 : (m - 1).toNat = m.toNat - 1 := by simp [UInt32.toNat_sub_of_le _ _ hle]
  have h2 : (rest m).toNat ≤ (m - 1).toNat := by
    rw [rest, UInt32.toNat_and]
    exact Nat.and_le_right
  omega

def gather (w m : UInt32) : UInt32 :=
  if m = 0 then 0
  else
    let bit : UInt32 := if w &&& lowest m = 0 then 0 else 1
    bit ||| (gather w (rest m) <<< 1)
termination_by m.toNat
decreasing_by exact rest_lt ‹_›

def scatter (w m : UInt32) : UInt32 :=
  if m = 0 then 0
  else
    let bit := if w &&& 1 = 0 then 0 else lowest m
    bit ||| scatter (w >>> 1) (rest m)
termination_by m.toNat
decreasing_by exact rest_lt ‹_›

/-- Number of set bits, one step per bit like the two operations above. -/
def count (m : UInt32) : Nat := if m = 0 then 0 else count (rest m) + 1
termination_by m.toNat
decreasing_by exact rest_lt ‹_›

end Readout.Bits
