import Readout.Bytes
import Readout.Value.Text

/-!
# Export formats

The full format writes the words of all values. The sparse format writes, for each input, how
many values are valid, their indices and their words. The text format writes one line per event,
values separated by commas, where an invalid value leaves its field empty. Each encoder returns
the pieces that are written one after the other.
-/
namespace Readout

inductive ExportFormat
  | full
  | sparse
  | csv
deriving DecidableEq

namespace ExportFormat

def encodeFull (inputs : List (List Value)) : List (List UInt8) :=
  inputs.flatMap fun vs => vs.map Bytes.ofValue

def validEntries (vs : List Value) : List (Value × Nat) := vs.zipIdx.filter fun e => e.1.isValid

def encodeSparseInput (vs : List Value) : List (List UInt8) :=
  let entries := validEntries vs
  Bytes.encode 2 entries.length ::
    (entries.map fun e => Bytes.encode 2 e.2) ++ entries.map fun e => Bytes.ofValue e.1

def encodeSparse (inputs : List (List Value)) : List (List UInt8) :=
  inputs.flatMap encodeSparseInput

def fieldText (v : Value) : List UInt8 := if v.isValid then v.text.toUTF8.toList else []

def comma : UInt8 := 44
def newline : UInt8 := 10

def encodeLine : List Value → List (List UInt8)
  | [] => [[newline]]
  | [v] => [fieldText v, [newline]]
  | v :: rest => fieldText v :: [comma] :: encodeLine rest

def encode (f : ExportFormat) (inputs : List (List Value)) : List (List UInt8) :=
  match f with
  | full => encodeFull inputs
  | sparse => encodeSparse inputs
  | csv => encodeLine inputs.flatten

end ExportFormat

end Readout
