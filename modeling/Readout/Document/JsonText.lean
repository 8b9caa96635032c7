import Readout.Document.Basic
import Readout.Text.Quoted
import Readout.Value.Text

/-!
# Writing JSON

Documents are written with two blanks per level, one entry or item per line. A number that is not
finite has no form in JSON and is written as null.
-/
namespace Readout.Json

def fourDigits (n : Nat) : String :=
  let ds := Quoted.hexadecimal n
  zeros (4 - ds.length) ++ ds

def characterText (c : Char) : String :=
  if c = '"' then "\\\""
  else if c = '\\' then "\\\\"
  else if c = '\n' then "\\n"
  else if c = '\r' then "\\r"
  else if c = '\t' then "\\t"
  else if c.toNat = 8 then "\\b"
  else if c.toNat = 12 then "\\f"
  else if c.toNat < 0x20 then "\\u" ++ fourDigits c.toNat
  else c.toString

def quote (s : String) : String := "\"" ++ String.join (s.toList.map characterText) ++ "\""

def numberText (v : Value) : String := if v.isFinite then v.documentText else "null"

def indent (level : Nat) : String := "\n" ++ String.ofList (List.replicate (2 * level) ' ')

def enclose (level : Nat) (opening closing : String) (parts : List String) : String :=
  if parts.isEmpty then opening ++ closing
  else
    opening ++ String.intercalate "," (parts.map fun p => indent (level + 1) ++ p) ++
      indent level ++ closing

mutual

def write (level : Nat) : Document → String
  | .null | .malformed => "null"
  | .bool b => if b then "true" else "false"
  | .natural n => toString n
  | .integer n => toString n
  | .number v => numberText v
  | .text s => quote s
  | .list items => enclose level "[" "]" (writeItems (level + 1) items)
  | .table entries => enclose level "\x7b" "\x7d" (writeEntries (level + 1) entries)

def writeItems (level : Nat) : List Document → List String
  | [] => []
  | d :: rest => write level d :: writeItems level rest

def writeEntries (level : Nat) : List (String × Document) → List String
  | [] => []
  | (key, d) :: rest => (quote key ++ ": " ++ write level d) :: writeEntries level rest

end

def text (d : Document) : String := write 0 d

end Readout.Json
