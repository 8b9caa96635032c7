import Readout.Document.JsonNumber

/-!
# Reading JSON

The reader takes one value with blanks around it. Texts may hold escaped halves of a character;
a half without its other one leaves a malformed part in the document, a table with such a key is
malformed as a whole.
-/
namespace Readout.Json

def isBlank (c : Char) : Bool := c = ' ' || c = '\n' || c = '\t' || c = '\r'

def skipBlanks (cs : List Char) : List Char := cs.dropWhile isBlank

def hexDigit? (c : Char) : Option Nat :=
  if c.isDigit then some (c.toNat - '0'.toNat)
  else if 'a' ≤ c ∧ c ≤ 'f' then some (c.toNat - 'a'.toNat + 10)
  else if 'A' ≤ c ∧ c ≤ 'F' then some (c.toNat - 'A'.toNat + 10)
  else none

def unit? : List Char → Option (Nat × List Char)
  | a :: b :: c :: d :: rest => do
    return ((((← hexDigit? a) * 16 + (← hexDigit? b)) * 16 + (← hexDigit? c)) * 16 +
      (← hexDigit? d), rest)
  | _ => none

def isHighHalf (n : Nat) : Bool := 0xd800 ≤ n && n < 0xdc00
def isLowHalf (n : Nat) : Bool := 0xdc00 ≤ n && n < 0xe000

def plainEscape? : Char → Option Char
  | '"' => some '"'
  | '\\' => some '\\'
  | '/' => some '/'
  | 'b' => some (Char.ofNat 8)
  | 'f' => some (Char.ofNat 12)
  | 'n' => some '\n'
  | 'r' => some '\r'
  | 't' => some '\t'
  | _ => none

/-- The character that an escaped unit stands for, taking the second half if there is one.
Nothing stands for a half alone. -/
def wholeUnit (n : Nat) (rest : List Char) : Option Char × List Char :=
  if isHighHalf n then
    match rest with
    | '\\' :: 'u' :: more =>
      match unit? more with
      | some (m, after) =>
        if isLowHalf m then
          (some (Char.ofNat (0x10000 + (n - 0xd800) * 0x400 + (m - 0xdc00))), after)
        else (none, rest)
      | none => (none, rest)
    | _ => (none, rest)
  else if isLowHalf n then (none, rest)
  else (some (Char.ofNat n), rest)

/-- The rest of a text behind its opening quote. The characters so far come in reverse, and `ok`
tells whether all of them are whole. -/
def readText : Nat → List Char → Bool → List Char → Option (Option String × List Char)
  | 0, _, _, _ => none
  | _, _, _, [] => none
  | _, done, ok, '"' :: rest => some (if ok then some (String.ofList done.reverse) else none, rest)
  | fuel + 1, done, ok, '\\' :: 'u' :: rest =>
    match unit? rest with
    | none => none
    | some (n, rest) =>
      match wholeUnit n rest with
      | (some c, rest) => readText fuel (c :: done) ok rest
      | (none, rest) => readText fuel done false rest
  | fuel + 1, done, ok, '\\' :: c :: rest =>
    match plainEscape? c with
    | some c => readText fuel (c :: done) ok rest
    | none => none
  | fuel + 1, done, ok, c :: rest =>
    if c.toNat < 0x20 then none else readText fuel (c :: done) ok rest

def textFrom (cs : List Char) : Option (Option String × List Char) :=
  readText (cs.length + 1) [] true cs

def literal? (word : String) (d : Document) (cs : List Char) : Option (Document × List Char) :=
  let w := word.toList
  if cs.take w.length = w then some (d, cs.drop w.length) else none

/-- A table, unless one of its keys is malformed. -/
def tableOf (ok : Bool) (entries : List (String × Document)) : Document :=
  if ok then .table entries.reverse else .malformed

mutual

def readValue : Nat → List Char → Option (Document × List Char)
  | 0, _ => none
  | fuel + 1, cs =>
    match skipBlanks cs with
    | '\x7b' :: rest =>
      match skipBlanks rest with
      | '\x7d' :: rest => some (.table [], rest)
      | rest => readEntries fuel [] true rest
    | '[' :: rest =>
      match skipBlanks rest with
      | ']' :: rest => some (.list [], rest)
      | rest => readItems fuel [] rest
    | '"' :: rest =>
      match textFrom rest with
      | some (some s, rest) => some (.text s, rest)
      | some (none, rest) => some (.malformed, rest)
      | none => none
    | 't' :: rest => literal? "true" (.bool true) ('t' :: rest)
    | 'f' :: rest => literal? "false" (.bool false) ('f' :: rest)
    | 'n' :: rest => literal? "null" .null ('n' :: rest)
    | rest => readNumber rest

def readItems : Nat → List Document → List Char → Option (Document × List Char)
  | 0, _, _ => none
  | fuel + 1, done, cs =>
    match readValue fuel cs with
    | none => none
    | some (d, rest) =>
      match skipBlanks rest with
      | ',' :: rest => readItems fuel (d :: done) rest
      | ']' :: rest => some (.list (d :: done).reverse, rest)
      | _ => none

def readEntries : Nat → List (String × Document) → Bool → List Char → Option (Document × List Char)
  | 0, _, _, _ => none
  | fuel + 1, done, ok, cs =>
    match skipBlanks cs with
    | '"' :: rest =>
      match textFrom rest with
      | none => none
      | some (key, rest) =>
        match skipBlanks rest with
        | ':' :: rest =>
          match readValue fuel rest with
          | none => none
          | some (d, rest) =>
            let done := (key.getD "", d) :: done
            let ok := ok && key.isSome
            match skipBlanks rest with
            | ',' :: rest => readEntries fuel done ok rest
            | '\x7d' :: rest => some (tableOf ok done, rest)
            | _ => none
        | _ => none
    | _ => none

end

def read? (s : String) : Option Document :=
  let cs := s.toList
  match readValue (2 * cs.length + 2) cs with
  | some (d, rest) => if (skipBlanks rest).isEmpty then some d else none
  | none => none

end Readout.Json
