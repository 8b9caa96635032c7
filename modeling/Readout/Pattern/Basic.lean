import Readout.Error
import Readout.Bits

/-!
# Bit patterns

A pattern describes one 32-bit word by one symbol per bit: the bit is clear, the bit is set, the
bit does not matter, or the bit belongs to the address or to the data field. It is written with
the highest bit first, in any case and with blanks anywhere; a short pattern describes the low
bits and leaves the others open. A pattern may be pinned to one position in the word list.
-/
namespace Readout

inductive Symbol
  | zero
  | one
  | any
  | address
  | data
deriving DecidableEq

namespace Symbol

def letter : Symbol → Char
  | zero => '0'
  | one => '1'
  | any => 'X'
  | address => 'A'
  | data => 'D'

def ofLower? (code : Nat) : Option Symbol :=
  if code = '0'.toNat then some zero
  else if code = '1'.toNat then some one
  else if code = 'x'.toNat then some any
  else if code = 'a'.toNat then some address
  else if code = 'd'.toNat then some data
  else none

def lowerCode (code : Nat) : Nat := if 'A'.toNat ≤ code ∧ code ≤ 'Z'.toNat then code + 32 else code

def ofByte? (b : UInt8) : Option Symbol := ofLower? (lowerCode b.toNat)

/-- Only the low eight bits of a marker count. -/
def ofMarker? (c : Char) : Option Symbol := ofLower? (lowerCode c.toNat % 256)

end Symbol

/-- One symbol per bit, the lowest bit first. A negative word index fits every position. -/
structure Pattern where
  symbols : List Symbol
  length_eq : symbols.length = 32
  wordIndex : Int
deriving DecidableEq

namespace Pattern

/-- Bit `k` of the mask tells whether symbol `k` has the property. -/
def maskOf (p : Symbol → Bool) (symbols : List Symbol) : UInt32 :=
  symbols.foldr (fun s m => (m <<< 1) ||| (if p s then 1 else 0)) 0

def mask (p : Pattern) : UInt32 := maskOf (fun s => s = .zero ∨ s = .one) p.symbols

def value (p : Pattern) : UInt32 := maskOf (· = .one) p.symbols

def accepts (p : Pattern) (word : UInt32) (index : Int) : Bool :=
  (p.wordIndex < 0 ∨ p.wordIndex = index) && word &&& p.mask == p.value

/-- The bytes of a pattern text that are not blanks, the highest bit first. -/
def significant (text : String) : List UInt8 := text.toUTF8.toList.filter (· ≠ 32)

def ofSymbols (symbols : List Symbol) (h : symbols.length ≤ 32) (wordIndex : Int) : Pattern where
  symbols := symbols.reverse ++ List.replicate (32 - symbols.length) .any
  length_eq := by simp; omega
  wordIndex := wordIndex

def read (wordIndex : Int) (text : String) : Except PatternError Pattern :=
  let bytes := significant text
  if h : bytes.length ≤ 32 then
    match bytes.find? fun b => (Symbol.ofByte? b).isNone with
    | some b => throw (.badCharacter (Char.ofNat (Symbol.lowerCode b.toNat)) text)
    | none =>
      return ofSymbols (bytes.filterMap Symbol.ofByte?)
        (Nat.le_trans (List.length_filterMap_le _ _) h) wordIndex
  else throw (.tooLong text)

/-- A pattern for words at any position. -/
def parse (text : String) : Except PatternError Pattern := read (-1) text

/-- Groups of four letters, the highest bit first. -/
def nibbles : List Char → List Char
  | a :: b :: c :: d :: e :: rest => a :: b :: c :: d :: ' ' :: nibbles (e :: rest)
  | rest => rest

def text (p : Pattern) : String := String.ofList (nibbles (p.symbols.reverse.map Symbol.letter))

end Pattern

/-- Where the bits of one field lie. Bits that form one block need only a shift. -/
structure Field where
  mask : UInt32
  bits : Nat
  scattered : Bool
  shift : Nat
deriving DecidableEq, Inhabited

namespace Field

def none : Field := ⟨0, 0, false, 0⟩

def extract (f : Field) (word : UInt32) : UInt32 :=
  let block := (word &&& f.mask) >>> UInt32.ofNat f.shift
  if f.scattered then Bits.gather block (f.mask >>> UInt32.ofNat f.shift) else block

end Field

namespace Pattern

/-- A symbol that comes back after a gap scatters its field. -/
def field (p : Pattern) (s : Symbol) : Field :=
  let start := p.symbols.dropWhile (· ≠ s)
  if start.isEmpty then Field.none
  else
    { mask := maskOf (· = s) p.symbols
      bits := p.symbols.count s
      scattered := (start.dropWhile (· = s)).contains s
      shift := 32 - start.length }

end Pattern

end Readout
