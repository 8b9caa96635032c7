import Readout.Pattern.Group

/-!
# Packed words

Some modules spread one hit over several words. A packing cuts the low 16 bits, or all 32, out
of each word, joins the parts from bit 0 upwards into one 64-bit value and matches the two halves
of that value against at most two patterns, the last one for the low half.
-/
namespace Readout

structure Packing where
  group : Group
  wide : Bool
  reversed : Bool
  wordCount : Nat
deriving DecidableEq

namespace Packing

def partBits (p : Packing) : Nat := if p.wide then 32 else 16

def maxWords (wide : Bool) : Nat := if wide then 2 else 4

def combinedBits (p : Packing) : Nat := p.wordCount * p.partBits

/-- Adds patterns from the low half upwards, each pinned to its half. -/
def addHalves : Nat → List String → Group → Except PatternError Group
  | _, [], g => return g
  | half, text :: rest, g => do addHalves (half + 1) rest (← g.add (← Pattern.read half text))

def make (wide reversed : Bool) (wordCount : Nat) (patterns : List String) :
    Except Error Packing :=
  if 2 < patterns.length then throw (.combine (.tooManyPatterns patterns.length))
  else do
    let group ← (addHalves 0 patterns.reverse Group.empty).mapError Error.pattern
    if wordCount = 0 ∨ maxWords wide < wordCount then
      throw (.combine (.wordCount wordCount (maxWords wide)))
    return ⟨group, wide, reversed, wordCount⟩

/-- Joins parts, the first one in the low bits. -/
def join (bits : Nat) : List UInt32 → UInt64
  | [] => 0
  | w :: rest => (w.toUInt64 &&& (((1 : UInt64) <<< UInt64.ofNat bits) - 1)) |||
      (join bits rest <<< UInt64.ofNat bits)

def combine (p : Packing) (data : List UInt32) : UInt64 :=
  let words := data.take p.wordCount
  join p.partBits (if p.reversed then words.reverse else words)

def matched (p : Packing) (combined : UInt64) : Group :=
  (p.group.release.offer combined.toUInt32 0).offer (combined >>> 32).toUInt32 1

/-- A field of a combined value, nothing if the value does not match. -/
def extract? (p : Packing) (combined : UInt64) (part : Part) : Option UInt64 :=
  let g := p.matched combined
  if g.complete then some (g.extract part) else none

end Packing

end Readout
