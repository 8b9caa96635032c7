import Readout.Document.JsonText
import Readout.Word

/-!
# Writing TOML

A table is written as its plain entries, one on a line, followed by its lists of tables, each
table under a header in double brackets. Nulls are left out. A natural number that does not fit
64 bits with a sign has no form in TOML.
-/
namespace Readout.Toml

def isControl (c : Char) : Bool := c.toNat < 0x20 || c.toNat = 0x7f

def characterText (c : Char) : String :=
  if c = '"' then "\\\""
  else if c = '\\' then "\\\\"
  else if c = '\n' then "\\n"
  else if c = '\r' then "\\r"
  else if c = '\t' then "\\t"
  else if isControl c then "\\u" ++ Json.fourDigits c.toNat
  else c.toString

def quote (s : String) : String := "\"" ++ String.join (s.toList.map characterText) ++ "\""

def isBareKey (s : String) : Bool :=
  s ≠ "" && s.toList.all fun c => c.isAlphanum || c = '-' || c = '_'

def keyText (s : String) : String := if isBareKey s then s else quote s

def numberText (v : Value) : String :=
  if v.isNaN then v.sign ++ "nan"
  else if v.isInfinite then v.sign ++ "inf"
  else v.documentText

def isNull : Document → Bool
  | .null => true
  | _ => false

def isTable : Document → Bool
  | .table _ => true
  | _ => false

/-- A list that is written as tables under headers. -/
def isTables : Document → Bool
  | .list items => !items.isEmpty && items.all isTable
  | _ => false

mutual

def inline : Document → Option String
  | .null | .malformed => none
  | .bool b => some (if b then "true" else "false")
  | .natural n => if n < Word.size 63 then some (toString n) else none
  | .integer n => some (toString n)
  | .number v => some (numberText v)
  | .text s => some (quote s)
  | .list items => do return "[" ++ String.intercalate ", " (← inlineItems items) ++ "]"
  | .table entries => do
    return "\x7b " ++ String.intercalate ", " (← inlineEntries entries) ++ " \x7d"

def inlineItems : List Document → Option (List String)
  | [] => some []
  | d :: rest => do return (← inline d) :: (← inlineItems rest)

def inlineEntries : List (String × Document) → Option (List String)
  | [] => some []
  | (key, d) :: rest => do
    let more ← inlineEntries rest
    if isNull d then return more
    return (keyText key ++ " = " ++ (← inline d)) :: more

end

mutual

def plainLines : List (String × Document) → Option (List String)
  | [] => some []
  | (key, d) :: rest => do
    let more ← plainLines rest
    if isNull d || isTables d then return more
    return (keyText key ++ " = " ++ (← inline d)) :: more

def tableLines (path : List String) : List (String × Document) → Option (List String)
  | [] => some []
  | (key, .list items) :: rest => do
    let here ← if isTables (.list items) then headedLines (path ++ [key]) items else some []
    return here ++ (← tableLines path rest)
  | _ :: rest => tableLines path rest

def headedLines (path : List String) : List Document → Option (List String)
  | [] => some []
  | .table entries :: rest => do
    let plain ← plainLines entries
    let below ← tableLines path entries
    let header := "[[" ++ String.intercalate "." (path.map keyText) ++ "]]"
    return "" :: header :: plain ++ below ++ (← headedLines path rest)
  | _ :: rest => headedLines path rest

end

/-- Only a table has a form as a whole text. -/
def text? : Document → Option String
  | .table entries => do
    let lines := (← plainLines entries) ++ (← tableLines [] entries)
    return String.join (lines.map (· ++ "\n"))
  | _ => none

end Readout.Toml
