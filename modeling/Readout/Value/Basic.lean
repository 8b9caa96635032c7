/-!
# Values

A value is one double-precision word. An invalid value is a quiet NaN whose payload is odd;
every other word, computed NaNs included, is valid. Validity therefore travels inside the word
and survives every copy. Arithmetic reads the word as a number: a NaN operand is passed on,
the left one first, and a NaN that arises anew is the negative quiet NaN without payload, so
that no arithmetic on valid values makes an invalid one.
-/
namespace Readout

/-- A double-precision word, kept as bits because a NaN carries a payload. -/
structure Value where
  bits : UInt64
deriving DecidableEq, Inhabited

namespace Value

def exponentMask : UInt64 := 0x7ff0000000000000
def quietBit : UInt64 := 0x0008000000000000
def payloadMask : UInt64 := 0x0007ffffffffffff
def signBit : UInt64 := 0x8000000000000000
def magnitudeMask : UInt64 := 0x7fffffffffffffff

def isNaN (v : Value) : Bool := exponentMask < v.bits &&& magnitudeMask

/-- The quiet NaN that carries the low 51 bits of a payload. -/
def nan (payload : UInt64) : Value := ⟨exponentMask ||| quietBit ||| (payload &&& payloadMask)⟩

/-- Zero for everything that is not a NaN. -/
def payload (v : Value) : UInt64 := if v.isNaN then v.bits &&& payloadMask else 0

def invalid : Value := nan 1

def unset : Value := nan 0

def isValid (v : Value) : Bool := !(v.isNaN && v.payload &&& 1 != 0)

def zero : Value := ⟨0⟩
def one : Value := ⟨0x3ff0000000000000⟩
def two : Value := ⟨0x4000000000000000⟩
def infinity : Value := ⟨exponentMask⟩
def negInfinity : Value := ⟨exponentMask ||| signBit⟩
def largest : Value := ⟨0x7fefffffffffffff⟩

def toFloat (v : Value) : Float := Float.ofBits v.bits

def freshNaN : Value := ⟨exponentMask ||| quietBit ||| signBit⟩

def ofFloat (x : Float) : Value := if x.isNaN then freshNaN else ⟨x.toBits⟩

def quiet (v : Value) : Value := ⟨v.bits ||| quietBit⟩

def unary (f : Float → Float) (a : Value) : Value :=
  if a.isNaN then a.quiet else ofFloat (f a.toFloat)

def binary (f : Float → Float → Float) (a b : Value) : Value :=
  if a.isNaN then a.quiet else if b.isNaN then b.quiet else ofFloat (f a.toFloat b.toFloat)

instance : Add Value := ⟨binary (· + ·)⟩
instance : Sub Value := ⟨binary (· - ·)⟩
instance : Mul Value := ⟨binary (· * ·)⟩
instance : Div Value := ⟨binary (· / ·)⟩
instance : Neg Value := ⟨fun a => ⟨a.bits ^^^ signBit⟩⟩

def sqrt (a : Value) : Value := unary Float.sqrt a

/-- Nearest double of a natural number below two to the 64. -/
def ofNat (n : Nat) : Value := ⟨(UInt64.ofNat n).toFloat.toBits⟩

def powerOfTwo (n : Nat) : Value := ⟨UInt64.ofNat (1023 + n) <<< 52⟩

def ofInt : Int → Value
  | .ofNat n => ofNat n
  | .negSucc n => -ofNat (n + 1)

/-- The integer part, from 0 for a negative number or a NaN up to the largest 64-bit word. -/
def toNat (a : Value) : Nat := if a.isNaN then 0 else a.toFloat.toUInt64.toNat

def below (a b : Value) : Bool := !a.isNaN && !b.isNaN && a.toFloat < b.toFloat
def atMost (a b : Value) : Bool := !a.isNaN && !b.isNaN && a.toFloat ≤ b.toFloat
def isZero (a : Value) : Bool := a.bits &&& magnitudeMask == 0

/-- Two numbers of one size, where a NaN equals nothing and the two zeros are equal. -/
def equal (a b : Value) : Bool := !a.isNaN && !b.isNaN && a.toFloat == b.toFloat

def isInfinite (a : Value) : Bool := a.bits &&& magnitudeMask == exponentMask
def isFinite (a : Value) : Bool := a.bits &&& magnitudeMask < exponentMask

/-- The smaller of two values, the first one where neither is smaller. -/
def least (a b : Value) : Value := if below b a then b else a
def greatest (a b : Value) : Value := if below a b then b else a

end Value

end Readout
