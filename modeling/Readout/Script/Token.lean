import Readout.Decimal.Nearest
import Readout.Word

/-!
# Script tokens

Scripts are split into numbers, texts, words and marks. Blanks and comments separate tokens.
-/
namespace Readout.Script

inductive Token
  | int (n : Int)
  | float (v : Value)
  | text (s : String)
  | word (s : String)
  | mark (s : String)
deriving DecidableEq

namespace Token

def isWordStart (c : Char) : Bool := c.isAlpha || c = '_'
def isWordPart (c : Char) : Bool := c.isAlphanum || c = '_'

/-- Longer marks come first, so that the longest one is taken. -/
def marks : List String :=
  ["..=", "==", "!=", "<=", ">=", "&&", "||", "+=", "-=", "*=", "/=", "%=", "..", "(", ")", "[",
    "]", "\x7b", "\x7d", ";", ",", ".", ":", "=", "<", ">", "!", "+", "-", "*", "/", "%"]

def stripped? : List Char → List Char → Option (List Char)
  | [], cs => some cs
  | m :: ms, c :: cs => if m = c then stripped? ms cs else none
  | _ :: _, [] => none

def mark? (cs : List Char) : Option (String × List Char) :=
  marks.findSome? fun m => (stripped? m.toList cs).map fun rest => (m, rest)

def digits (cs : List Char) : List Char × List Char :=
  ((cs.takeWhile fun c => c.isDigit || c = '_').filter Char.isDigit,
    cs.dropWhile fun c => c.isDigit || c = '_')

def exponent? : List Char → Option (Int × List Char)
  | e :: '-' :: d :: rest =>
    if (e = 'e' ∨ e = 'E') ∧ d.isDigit then
      let (ds, rest) := digits (d :: rest)
      some (-(Decimal.ofDigits ds : Int), rest)
    else none
  | e :: '+' :: d :: rest =>
    if (e = 'e' ∨ e = 'E') ∧ d.isDigit then
      let (ds, rest) := digits (d :: rest)
      some (Decimal.ofDigits ds, rest)
    else none
  | e :: d :: rest =>
    if (e = 'e' ∨ e = 'E') ∧ d.isDigit then
      let (ds, rest) := digits (d :: rest)
      some (Decimal.ofDigits ds, rest)
    else none
  | _ => none

/-- A point belongs to a number unless a second point or a word follows. -/
def fraction (cs : List Char) : Option (List Char × List Char) :=
  match cs with
  | '.' :: c :: rest =>
    if c.isDigit then some (digits (c :: rest))
    else if c = '.' ∨ isWordStart c then none
    else some ([], c :: rest)
  | ['.'] => some ([], [])
  | _ => none

def number (cs : List Char) : Token × List Char :=
  let (whole, rest) := digits cs
  let (places, rest, isFloat) :=
    match fraction rest with
    | some (places, rest) => (places, rest, true)
    | none => ([], rest, false)
  let (power, rest, isFloat) :=
    match exponent? rest with
    | some (power, rest) => (power, rest, true)
    | none => (0, rest, isFloat)
  let n := Decimal.ofDigits (whole ++ places)
  if isFloat ∨ Word.size 63 ≤ n then (.float (Decimal.nearest n (power - places.length)), rest)
  else (.int n, rest)

def hexDigit? (c : Char) : Option Nat :=
  if c.isDigit then some (c.toNat - '0'.toNat)
  else if 'a' ≤ c ∧ c ≤ 'f' then some (c.toNat - 'a'.toNat + 10)
  else if 'A' ≤ c ∧ c ≤ 'F' then some (c.toNat - 'A'.toNat + 10)
  else none

def hexNumber? (count : Nat) (cs : List Char) : Option (Nat × List Char) := do
  if cs.length < count then none
  let ds ← (cs.take count).mapM hexDigit?
  return (ds.foldl (fun n d => 16 * n + d) 0, cs.drop count)

def escape? : List Char → Option (Char × List Char)
  | 'n' :: rest => some ('\n', rest)
  | 't' :: rest => some ('\t', rest)
  | 'r' :: rest => some ('\r', rest)
  | '\\' :: rest => some ('\\', rest)
  | '"' :: rest => some ('"', rest)
  | 'x' :: rest => (hexNumber? 2 rest).map fun (n, rest) => (Char.ofNat n, rest)
  | 'u' :: rest => (hexNumber? 4 rest).map fun (n, rest) => (Char.ofNat n, rest)
  | 'U' :: rest => (hexNumber? 8 rest).map fun (n, rest) => (Char.ofNat n, rest)
  | _ => none

def text? : Nat → List Char → Option (List Char × List Char)
  | 0, _ => none
  | _, [] => none
  | _, '"' :: rest => some ([], rest)
  | fuel + 1, '\\' :: rest => do
    let (c, rest) ← escape? rest
    let (cs, rest) ← text? fuel rest
    return (c :: cs, rest)
  | fuel + 1, c :: rest => do
    if c = '\n' then none
    let (cs, rest) ← text? fuel rest
    return (c :: cs, rest)

/-- Skips a comment that may hold others. -/
def skipComment : Nat → Nat → List Char → List Char
  | 0, _, cs => cs
  | _, 0, cs => cs
  | _, _, [] => []
  | fuel + 1, depth + 1, '*' :: '/' :: rest => skipComment fuel depth rest
  | fuel + 1, depth + 1, '/' :: '*' :: rest => skipComment fuel (depth + 2) rest
  | fuel + 1, depth, _ :: rest => skipComment fuel depth rest

def scan : Nat → List Char → Option (List Token)
  | _, [] => some []
  | 0, _ => none
  | fuel + 1, '/' :: '/' :: rest => scan fuel (rest.dropWhile (· ≠ '\n'))
  | fuel + 1, '/' :: '*' :: rest => scan fuel (skipComment rest.length 1 rest)
  | fuel + 1, '"' :: rest => do
    let (cs, rest) ← text? (rest.length + 1) rest
    return .text (String.ofList cs) :: (← scan fuel rest)
  | fuel + 1, c :: rest =>
    if c.isWhitespace then scan fuel rest
    else if c.isDigit then do
      let (t, rest) := number (c :: rest)
      return t :: (← scan fuel rest)
    else if isWordStart c then do
      let name := c :: rest.takeWhile isWordPart
      return .word (String.ofList name) :: (← scan fuel (rest.dropWhile isWordPart))
    else do
      let (m, rest) ← mark? (c :: rest)
      return .mark m :: (← scan fuel rest)

def ofText? (s : String) : Option (List Token) := scan (s.length + 1) s.toList

end Token

end Readout.Script
