/-!
# Word sizes

Offsets, counts and integers are held in words of fixed width. The number of words of a width is
also the number of addresses that so many bits can tell apart.
-/
namespace Readout.Word

def size (bits : Nat) : Nat := Nat.pow 2 bits

def holds (bits : Nat) (n : Int) : Bool := 0 ≤ n && n < size bits

/-- An integer that a word of so many bits holds, one of them for the sign. -/
def holdsSigned (bits : Nat) (n : Int) : Bool := -(size (bits - 1) : Int) ≤ n && n < size (bits - 1)

end Readout.Word
