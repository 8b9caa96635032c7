import Readout.Config.Basic
import Readout.Word

/-!
# References

A reference names a node, one of its outputs by a number behind a dot, and one element of it in
brackets. Without a number the first output is meant. Blanks around a reference and around the
element do not count.
-/
namespace Readout

structure Reference where
  name : String
  output : Nat
  element : Option Nat
deriving DecidableEq

namespace Reference

def isBlank (c : Char) : Bool :=
  let n := c.toNat
  (9 ≤ n && n ≤ 13) || n == 0x20 || n == 0x85 || n == 0xa0 || n == 0x1680 ||
    (0x2000 ≤ n && n ≤ 0x200a) || n == 0x2028 || n == 0x2029 || n == 0x202f || n == 0x205f ||
    n == 0x3000

def trim (cs : List Char) : List Char :=
  ((cs.dropWhile isBlank).reverse.dropWhile isBlank).reverse

/-- What stands in front of the last mark and behind it. -/
def splitLast? (mark : Char) (cs : List Char) : Option (List Char × List Char) :=
  if cs.contains mark then
    let r := cs.reverse
    some ((r.dropWhile (· ≠ mark)).tail.reverse, (r.takeWhile (· ≠ mark)).reverse)
  else none

def word? (cs : List Char) : Option Nat :=
  let n := cs.foldl (fun n c => 10 * n + (c.toNat - '0'.toNat)) 0
  if !cs.isEmpty && cs.all Char.isDigit && n < Word.size 64 then some n else none

/-- An element may have a sign in front. -/
def element? (cs : List Char) : Option Nat :=
  match trim cs with
  | '+' :: rest => word? rest
  | cs => word? cs

/-- The part in brackets, if the reference ends with one: what stands before it, and the number,
which may be malformed. -/
def splitElement (cs : List Char) : List Char × Option (Option Nat) :=
  match cs.getLast? with
  | some ']' =>
    match splitLast? '[' cs.dropLast with
    | some (head, inner) => (head, some (element? inner))
    | none => (cs, none)
  | _ => (cs, none)

/-- The output number behind a dot. A part that is not all digits belongs to the name. -/
def splitOutput (cs : List Char) : List Char × Option Nat :=
  match splitLast? '.' cs with
  | some (name, n) => if !n.isEmpty && n.all Char.isDigit then (name, word? n) else (cs, some 0)
  | none => (cs, some 0)

def parse? (text : String) : Option Reference :=
  let (head, element) := splitElement (trim text.toList)
  if element = some none then none
  else
    match splitOutput head with
    | (_, none) => none
    | (name, some output) =>
      if name.isEmpty || name.contains '[' || name.contains ']' then none
      else some ⟨String.ofList name, output, element.join⟩

def shown (text : String) : String := String.ofList (trim text.toList)

def read (text : String) : Except ConfigError Reference :=
  match parse? text with
  | some r => return r
  | none => throw (.malformedReference (shown text))

/-- A node name is a reference that refers to just itself. -/
def isName (text : String) : Bool :=
  match parse? text with
  | some r => r.name = text && r.element.isNone
  | none => false

end Reference

end Readout
