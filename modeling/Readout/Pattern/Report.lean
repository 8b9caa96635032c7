import Readout.Pattern.Basic

/-!
# Description of a pattern

The long form of a pattern with its masks in hexadecimal.
-/
namespace Readout

def hexWord (w : UInt32) : String :=
  let ds := Nat.toDigits 16 w.toNat
  "0x" ++ String.ofList (List.replicate (8 - ds.length) '0' ++ ds)

def Pattern.describe (p : Pattern) : String :=
  "DataFilter \x7b filter: \"" ++ p.text ++ "\", match_mask: " ++ hexWord p.mask ++
    ", match_value: " ++ hexWord p.value ++ ", match_word_index: " ++ toString p.wordIndex ++
    " \x7d"

end Readout
