import Readout.Value.Basic

/-!
# Script data

Scripts compute with integers of 64 bits, doubles, booleans, texts, arrays, ranges and maps. The
variables in scope form a list with the newest first, and a name denotes the newest variable of
that name.
-/
namespace Readout.Script

inductive Datum
  | unit
  | bool (b : Bool)
  | int (n : Int)
  | float (v : Value)
  | text (s : String)
  | range (first stop : Int)
  | array (items : Array Datum)
  | map (entries : List (String × Datum))
deriving Inhabited

namespace Datum

def number? : Datum → Option Value
  | int n => some (Value.ofInt n)
  | float v => some v
  | _ => none

def array? : Datum → Option (Array Datum)
  | array items => some items
  | _ => none

def isArray : Datum → Bool
  | array _ => true
  | _ => false

def ofValues (vs : List Value) : Datum := array (vs.map float).toArray

end Datum

/-- Variables, the newest first. -/
abbrev Scope := List (String × Datum)

namespace Scope

def empty : Scope := []

def push (s : Scope) (name : String) (d : Datum) : Scope := (name, d) :: s

def find? (s : Scope) (name : String) : Option Datum := List.lookup name s

def assign : Scope → String → Datum → Scope
  | [], _, _ => []
  | (n, old) :: rest, name, d =>
    if n = name then (n, d) :: rest else (n, old) :: assign rest name d

def truncate (s : Scope) (size : Nat) : Scope := s.drop (s.length - size)

end Scope

end Readout.Script
