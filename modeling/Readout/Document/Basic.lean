import Readout.Value.Basic

/-!
# Documents

The common form of what JSON and TOML texts hold. Entries of a table keep their order and may
repeat a key, since a reader has to refuse that for some keys only. A part that has no value,
such as a number out of range, is kept in its place: it is an error only for a reader that looks
at it.
-/
namespace Readout

inductive Document
  | null
  | bool (b : Bool)
  /-- A number that was written without a sign. -/
  | natural (n : Nat)
  | integer (n : Int)
  | number (v : Value)
  | text (s : String)
  | list (items : List Document)
  | table (entries : List (String × Document))
  | malformed
deriving Inhabited

namespace Document

abbrev Fields := List (String × Document)

/-- Which of the two languages a document was written in. -/
inductive Language
  | json
  | toml
deriving DecidableEq

end Document

end Readout
