import Readout.Decimal.Nearest
import Readout.Document.Basic
import Readout.Word

/-!
# Numbers of JSON texts

Whole numbers without a point or an exponent are exact as long as they fit 64 bits. All others
are made of the first digits that fit 64 bits and of a power of ten, by one product or quotient
of doubles; they can miss the nearest double by a rounding. A number beyond the largest double is
out of range.
-/
namespace Readout.Json

def exponentLimit : Int := Word.size 31 - 1

/-- The digits of a number: before the point, behind it, and those of the exponent. -/
structure Numeral where
  negative : Bool
  whole : List Char
  places : Option (List Char)
  exponent : Option (Bool × List Char)

/-- Digits gathered into one word, and the power of ten that it still has to be scaled by. -/
structure Gathered where
  digits : Nat
  exponent : Int

/-- Takes digits in front of the point. The first one that does not fit and all behind it only
raise the exponent. -/
def gatherWhole : Nat → List Char → Gathered
  | n, [] => ⟨n, 0⟩
  | n, c :: rest =>
    let next := 10 * n + Decimal.digitValue c
    if next < Word.size 64 then gatherWhole next rest else ⟨n, (rest.length : Int) + 1⟩

/-- Takes digits behind the point up to the first one that does not fit. -/
def gatherPlaces (g : Gathered) : List Char → Gathered
  | [] => g
  | c :: rest =>
    let next := 10 * g.digits + Decimal.digitValue c
    if next < Word.size 64 then gatherPlaces ⟨next, g.exponent - 1⟩ rest else g

def power (n : Nat) : Value := Decimal.nearest 1 n

/-- Scales down by steps of 308 until one quotient is left. -/
def scaleDown : Nat → Value → Nat → Value
  | 0, f, _ => f
  | fuel + 1, f, n =>
    if n ≤ 308 then f / power n
    else if f.isZero then f
    else scaleDown fuel (f / power 308) (n - 308)

/-- Nothing if the result is out of range. -/
def scale (digits : Nat) (exponent : Int) : Option Value :=
  let f := Value.ofNat digits
  if exponent < 0 then some (scaleDown (digits + 4) f exponent.natAbs)
  else if exponent ≤ 308 then
    let v := f * power exponent.toNat
    if v.isInfinite then none else some v
  else if f.isZero then some f
  else none

def clamp (e : Int) : Int := max (-exponentLimit - 1) (min exponentLimit e)

def scaled (g : Gathered) (exponent : Option (Bool × List Char)) : Option Value :=
  match exponent with
  | none => scale g.digits g.exponent
  | some (negative, ds) =>
    let e : Int := Decimal.ofDigits ds
    if e ≤ exponentLimit then
      scale g.digits (clamp (if negative then g.exponent - e else g.exponent + e))
    else if g.digits = 0 ∨ negative then some Value.zero
    else none

def signed (negative : Bool) (v : Value) : Value := if negative then -v else v

def Numeral.document (n : Numeral) : Document :=
  let g := gatherWhole 0 n.whole
  match n.places, n.exponent with
  | none, none =>
    if g.exponent = 0 then
      if !n.negative then .natural g.digits
      else if 0 < g.digits ∧ g.digits ≤ Word.size 63 then .integer (-g.digits)
      else .number (-(Value.ofNat g.digits))
    else
      match scaled g none with
      | some v => .number (signed n.negative v)
      | none => .malformed
  | _, _ =>
    match scaled (gatherPlaces g (n.places.getD [])) n.exponent with
    | some v => .number (signed n.negative v)
    | none => .malformed

def digits (cs : List Char) : List Char × List Char :=
  (cs.takeWhile Char.isDigit, cs.dropWhile Char.isDigit)

def readPlaces : List Char → Option (Option (List Char) × List Char)
  | '.' :: rest =>
    match digits rest with
    | ([], _) => none
    | (ds, rest) => some (some ds, rest)
  | rest => some (none, rest)

def readExponentDigits (negative : Bool) (cs : List Char) :
    Option (Option (Bool × List Char) × List Char) :=
  match digits cs with
  | ([], _) => none
  | (ds, rest) => some (some (negative, ds), rest)

def readExponent : List Char → Option (Option (Bool × List Char) × List Char)
  | c :: rest =>
    if c = 'e' ∨ c = 'E' then
      match rest with
      | '+' :: rest => readExponentDigits false rest
      | '-' :: rest => readExponentDigits true rest
      | rest => readExponentDigits false rest
    else some (none, c :: rest)
  | [] => some (none, [])

/-- A zero in front stands alone. -/
def readWhole (cs : List Char) : Option (List Char × List Char) :=
  match digits cs with
  | ([], _) => none
  | ('0' :: _ :: _, _) => none
  | (ds, rest) => some (ds, rest)

def readNumeral (negative : Bool) (cs : List Char) : Option (Document × List Char) := do
  let (whole, cs) ← readWhole cs
  let (places, cs) ← readPlaces cs
  let (exponent, cs) ← readExponent cs
  return ((Numeral.mk negative whole places exponent).document, cs)

def readNumber : List Char → Option (Document × List Char)
  | '-' :: rest => readNumeral true rest
  | cs => readNumeral false cs

end Readout.Json
