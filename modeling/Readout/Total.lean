/-!
# Totals

The sum of a list of counts.
-/
namespace Readout

def total : List Nat → Nat
  | [] => 0
  | n :: rest => n + total rest

theorem total_append (a b : List Nat) : total (a ++ b) = total a + total b := by
  induction a with
  | nil => simp [total]
  | cons n rest ih => simp [total, ih, Nat.add_assoc]

end Readout
