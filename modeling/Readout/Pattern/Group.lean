import Readout.Pattern.Basic
import Readout.Total

/-!
# Pattern groups

A group of patterns is complete when every pattern has taken a word. A word goes to the first
pattern that is still free and accepts it. The address and the data of a complete group are the
fields of its patterns side by side, the first pattern in the low bits.
-/
namespace Readout

/-- One of the two fields that patterns mark. -/
inductive Part
  | address
  | data
deriving DecidableEq

/-- A pattern with its fields, the last word it took, and whether it is taken at present. -/
structure Member where
  pattern : Pattern
  address : Field
  data : Field
  word : UInt32
  taken : Bool
deriving DecidableEq

namespace Member

def ofPattern (p : Pattern) : Member := ⟨p, p.field .address, p.field .data, 0, false⟩

def field (m : Member) : Part → Field
  | .address => m.address
  | .data => m.data

def release (m : Member) : Member := { m with taken := false }

end Member

structure Group where
  members : List Member
deriving DecidableEq

namespace Group

def empty : Group := ⟨[]⟩

def maxPatterns : Nat := 16
def maxBits : Nat := 64

def count (g : Group) : Nat := g.members.length

def bits (g : Group) (part : Part) : Nat := total (g.members.map fun m => (m.field part).bits)

def release (g : Group) : Group := ⟨g.members.map Member.release⟩

def complete (g : Group) : Bool := g.members.all Member.taken

/-- Bit `k` is set while pattern `k` is taken. -/
def takenMask (g : Group) : Nat := g.members.foldr (fun m n => 2 * n + m.taken.toNat) 0

/-- Joining releases the patterns that are taken. -/
def add (g : Group) (p : Pattern) : Except PatternError Group :=
  let m := Member.ofPattern p
  let address := g.bits .address + m.address.bits
  let data := g.bits .data + m.data.bits
  if maxPatterns ≤ g.count then throw .tooManyPatterns
  else if maxBits < address then throw (.tooManyBits 'a' address)
  else if maxBits < data then throw (.tooManyBits 'd' data)
  else return release ⟨g.members ++ [m]⟩

def ofPatterns (patterns : List Pattern) : Except PatternError Group := patterns.foldlM add empty

def parse (texts : List String) : Except PatternError Group := do
  ofPatterns (← texts.mapM Pattern.parse)

def offerTo (word : UInt32) (index : Int) : List Member → List Member
  | [] => []
  | m :: rest =>
    if !m.taken && m.pattern.accepts word index then { m with word := word, taken := true } :: rest
    else m :: offerTo word index rest

def offer (g : Group) (word : UInt32) (index : Int) : Group := ⟨offerTo word index g.members⟩

def join (part : Part) : List Member → UInt64
  | [] => 0
  | m :: rest =>
    let f := m.field part
    (f.extract m.word).toUInt64 ||| (join part rest <<< UInt64.ofNat f.bits)

def extract (g : Group) (part : Part) : UInt64 := join part g.members

end Group

end Readout
