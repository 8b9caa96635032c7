import Readout.Decimal.Nearest
import Readout.Document.Basic
import Readout.Word

/-!
# Scalars of TOML texts

Texts are quoted by one mark or by three, and only double marks give escapes a meaning. Whole
numbers fit 64 bits with a sign; numbers with a point or an exponent are read as the nearest
double. Digits may be grouped by single underscores. A date stands as a table of one entry.
-/
namespace Readout.Toml

def isBlank (c : Char) : Bool := c = ' ' || c = '\t'

def skipBlanks (cs : List Char) : List Char := cs.dropWhile isBlank

def newline? : List Char → Option (List Char)
  | '\n' :: rest => some rest
  | '\r' :: '\n' :: rest => some rest
  | _ => none

/-- Characters that may stand in comments and in texts of one line. -/
def isPlain (c : Char) : Bool := c = '\t' || (0x20 ≤ c.toNat && c.toNat ≠ 0x7f)

def hexDigit? (c : Char) : Option Nat :=
  if c.isDigit then some (c.toNat - '0'.toNat)
  else if 'a' ≤ c ∧ c ≤ 'f' then some (c.toNat - 'a'.toNat + 10)
  else if 'A' ≤ c ∧ c ≤ 'F' then some (c.toNat - 'A'.toNat + 10)
  else none

/-- A character by so many hexadecimal digits. Halves of characters are none. -/
def codePoint? (count : Nat) (cs : List Char) : Option (Char × List Char) := do
  if cs.length < count then none
  let ds ← (cs.take count).mapM hexDigit?
  let n := ds.foldl (fun n d => 16 * n + d) 0
  if n.isValidChar then some (Char.ofNat n, cs.drop count) else none

def escape? : List Char → Option (Char × List Char)
  | 'b' :: rest => some (Char.ofNat 8, rest)
  | 't' :: rest => some ('\t', rest)
  | 'n' :: rest => some ('\n', rest)
  | 'f' :: rest => some (Char.ofNat 12, rest)
  | 'r' :: rest => some ('\r', rest)
  | '"' :: rest => some ('"', rest)
  | '\\' :: rest => some ('\\', rest)
  | 'u' :: rest => codePoint? 4 rest
  | 'U' :: rest => codePoint? 8 rest
  | _ => none

def isSpace (c : Char) : Bool := isBlank c || c = '\n'

def skipSpaces : Nat → List Char → List Char
  | 0, cs => cs
  | fuel + 1, cs =>
    match newline? (skipBlanks cs) with
    | some rest => skipSpaces fuel rest
    | none => skipBlanks cs

/-- A backslash at the end of a line takes the line end and all blanks behind it. -/
def lineJoin? (cs : List Char) : Option (List Char) :=
  (newline? (skipBlanks cs)).map fun rest => skipSpaces (rest.length + 1) rest

/-- A text behind its single opening mark; the characters so far come in reverse. -/
def readBasic : Nat → List Char → List Char → Option (String × List Char)
  | 0, _, _ => none
  | _, _, [] => none
  | _, done, '"' :: rest => some (String.ofList done.reverse, rest)
  | fuel + 1, done, '\\' :: rest =>
    match escape? rest with
    | some (c, rest) => readBasic fuel (c :: done) rest
    | none => none
  | fuel + 1, done, c :: rest => if isPlain c then readBasic fuel (c :: done) rest else none

def readLiteral : List Char → List Char → Option (String × List Char)
  | _, [] => none
  | done, '\'' :: rest => some (String.ofList done.reverse, rest)
  | done, c :: rest => if isPlain c then readLiteral (c :: done) rest else none

/-- Three marks close a text of several lines; up to two more in front of them belong to it. -/
def closing? (mark : Char) (cs : List Char) : Option (List Char × List Char) :=
  let run := (cs.takeWhile (· = mark)).length
  if run < 3 then none
  else
    let own := min (run - 3) 2
    some (List.replicate own mark, cs.drop (own + 3))

def readMultiBasic : Nat → List Char → List Char → Option (String × List Char)
  | 0, _, _ => none
  | _, _, [] => none
  | fuel + 1, done, '"' :: rest =>
    match closing? '"' ('"' :: rest) with
    | some (own, rest) => some (String.ofList (done.reverse ++ own), rest)
    | none => readMultiBasic fuel ('"' :: done) rest
  | fuel + 1, done, '\\' :: rest =>
    match lineJoin? rest with
    | some rest => readMultiBasic fuel done rest
    | none =>
      match escape? rest with
      | some (c, rest) => readMultiBasic fuel (c :: done) rest
      | none => none
  | fuel + 1, done, c :: rest =>
    match newline? (c :: rest) with
    | some rest => readMultiBasic fuel ('\n' :: done) rest
    | none => if isPlain c then readMultiBasic fuel (c :: done) rest else none

def readMultiLiteral : Nat → List Char → List Char → Option (String × List Char)
  | 0, _, _ => none
  | _, _, [] => none
  | fuel + 1, done, '\'' :: rest =>
    match closing? '\'' ('\'' :: rest) with
    | some (own, rest) => some (String.ofList (done.reverse ++ own), rest)
    | none => readMultiLiteral fuel ('\'' :: done) rest
  | fuel + 1, done, c :: rest =>
    match newline? (c :: rest) with
    | some rest => readMultiLiteral fuel ('\n' :: done) rest
    | none => if isPlain c then readMultiLiteral fuel (c :: done) rest else none

/-- A line end right behind three opening marks does not count. -/
def dropFirstNewline (cs : List Char) : List Char := (newline? cs).getD cs

def readText (cs : List Char) : Option (String × List Char) :=
  let fuel := cs.length + 1
  match cs with
  | '"' :: '"' :: '"' :: rest => readMultiBasic fuel [] (dropFirstNewline rest)
  | '\'' :: '\'' :: '\'' :: rest => readMultiLiteral fuel [] (dropFirstNewline rest)
  | '"' :: rest => readBasic fuel [] rest
  | '\'' :: rest => readLiteral [] rest
  | _ => none

/-- Digits, grouped by single underscores. The first character has to be a digit. -/
def readDigits (isDigit : Char → Bool) : List Char → Option (List Char × List Char)
  | [] => none
  | c :: rest => if isDigit c then tail [c] rest else none
where
  tail (done : List Char) : List Char → Option (List Char × List Char)
    | '_' :: c :: rest => if isDigit c then tail (c :: done) rest else none
    | ['_'] => none
    | c :: rest => if isDigit c then tail (c :: done) rest else some (done.reverse, c :: rest)
    | [] => some (done.reverse, [])

/-- A sign and the digits of a whole number; a zero in front stands alone. -/
def readSigned (cs : List Char) : Option (Bool × List Char × List Char) :=
  let (negative, cs) :=
    match cs with
    | '-' :: rest => (true, rest)
    | '+' :: rest => (false, rest)
    | rest => (false, rest)
  match cs with
  | '0' :: rest => some (negative, ['0'], rest)
  | cs => (readDigits Char.isDigit cs).map fun (ds, rest) => (negative, ds, rest)

def exponentMark (c : Char) : Bool := c = 'e' || c = 'E'

def readExponent : List Char → Option (Int × List Char)
  | '-' :: rest =>
    (readDigits Char.isDigit rest).map fun (ds, rest) => (-(Decimal.ofDigits ds : Int), rest)
  | '+' :: rest =>
    (readDigits Char.isDigit rest).map fun (ds, rest) => ((Decimal.ofDigits ds : Int), rest)
  | rest => (readDigits Char.isDigit rest).map fun (ds, rest) => ((Decimal.ofDigits ds : Int), rest)

def signed (negative : Bool) (v : Value) : Value := if negative then -v else v

/-- A number too large to be finite is refused, unless it is negative. -/
def floatOf (negative : Bool) (whole places : List Char) (exponent : Int) : Option Document :=
  let v := Decimal.nearest (Decimal.ofDigits (whole ++ places)) (exponent - places.length)
  if v.isInfinite && !negative then none else some (.number (signed negative v))

def readFloat? (negative : Bool) (whole : List Char) :
    List Char → Option (Option (Document × List Char))
  | '.' :: rest => do
    let (places, rest) ← readDigits Char.isDigit rest
    match rest with
    | c :: after =>
      if exponentMark c then do
        let (e, after) ← readExponent after
        return some (← floatOf negative whole places e, after)
      else return some (← floatOf negative whole places 0, rest)
    | [] => return some (← floatOf negative whole places 0, [])
  | c :: rest =>
    if exponentMark c then do
      let (e, rest) ← readExponent rest
      return some (← floatOf negative whole [] e, rest)
    else some none
  | [] => some none

def integerOf (n : Int) : Option Document :=
  if Word.holdsSigned 64 n then some (.integer n) else none

def readBased (base : Nat) (cs : List Char) : Option (Document × List Char) := do
  let inBase (c : Char) : Bool := (hexDigit? c).any (· < base)
  let (ds, rest) ← readDigits inBase cs
  let n := ds.foldl (fun n d => base * n + (hexDigit? d).getD 0) 0
  return (← integerOf n, rest)

def readInteger : List Char → Option (Document × List Char)
  | '0' :: 'x' :: rest => readBased 16 rest
  | '0' :: 'o' :: rest => readBased 8 rest
  | '0' :: 'b' :: rest => readBased 2 rest
  | cs => do
    let (negative, ds, rest) ← readSigned cs
    let n : Int := Decimal.ofDigits ds
    return (← integerOf (if negative then -n else n), rest)

def word? (word : String) (cs : List Char) : Option (List Char) :=
  let w := word.toList
  if cs.take w.length = w then some (cs.drop w.length) else none

def readSpecial (cs : List Char) : Option (Document × List Char) :=
  let (negative, cs) :=
    match cs with
    | '-' :: rest => (true, rest)
    | '+' :: rest => (false, rest)
    | rest => (false, rest)
  match word? "inf" cs, word? "nan" cs with
  | some rest, _ => some (.number (signed negative Value.infinity), rest)
  | none, some rest => some (.number (signed negative Value.unset), rest)
  | none, none => none

def readField (count : Nat) (cs : List Char) : Option (Nat × List Char) :=
  let ds := cs.take count
  if ds.length = count ∧ ds.all Char.isDigit then some (Decimal.ofDigits ds, cs.drop count)
  else none

def daysIn (year month : Nat) : Nat :=
  if month = 2 then
    if year % 4 = 0 ∧ (year % 100 ≠ 0 ∨ year % 400 = 0) then 29 else 28
  else if [4, 6, 9, 11].contains month then 30 else 31

/-- What is known of a date or a time that a text may begin with. -/
inductive Match
  | absent
  | wrong
  | found (rest : List Char)

def readMonthDay (year : Nat) (cs : List Char) : Option (List Char) := do
  let (month, cs) ← readField 2 cs
  let '-' :: cs := cs | none
  let (day, cs) ← readField 2 cs
  if 1 ≤ month ∧ month ≤ 12 ∧ 1 ≤ day ∧ day ≤ daysIn year month then some cs else none

def readDate (cs : List Char) : Match :=
  match readField 4 cs with
  | some (year, '-' :: rest) =>
    match readMonthDay year rest with
    | some rest => .found rest
    | none => .wrong
  | _ => .absent

def readMinutes (cs : List Char) : Option (List Char) := do
  let (minute, cs) ← readField 2 cs
  let ':' :: cs := cs | none
  let (second, cs) ← readField 2 cs
  if 59 < minute ∨ 60 < second then none
  match cs with
  | '.' :: rest =>
    if (rest.takeWhile Char.isDigit).isEmpty then none else some (rest.dropWhile Char.isDigit)
  | rest => some rest

def readTime (cs : List Char) : Match :=
  match readField 2 cs with
  | some (hour, ':' :: rest) =>
    if 23 < hour then .absent
    else
      match readMinutes rest with
      | some rest => .found rest
      | none => .wrong
  | _ => .absent

def readOffset : List Char → Option (List Char)
  | 'Z' :: rest | 'z' :: rest => some rest
  | c :: rest =>
    if c = '+' ∨ c = '-' then do
      let (hour, rest) ← readField 2 rest
      let ':' :: rest := rest | none
      let (minute, rest) ← readField 2 rest
      if hour ≤ 23 ∧ minute ≤ 59 then some rest else none
    else some (c :: rest)
  | [] => some []

def isTimeMark (c : Char) : Bool := c = 'T' || c = 't' || c = ' '

def readMoment (cs : List Char) : Match :=
  match readDate cs with
  | .wrong => .wrong
  | .absent => readTime cs
  | .found rest =>
    match rest with
    | c :: after =>
      if isTimeMark c then
        match readTime after with
        | .found after =>
          match readOffset after with
          | some after => .found after
          | none => .wrong
        | .wrong => .wrong
        | .absent => .found rest
      else .found rest
    | [] => .found []

def moment (cs rest : List Char) : Document :=
  .table [("$date", .text (String.ofList (cs.take (cs.length - rest.length))))]

def readNumber (cs : List Char) : Option (Document × List Char) :=
  match readMoment cs with
  | .wrong => none
  | .found rest => some (moment cs rest, rest)
  | .absent =>
    match readSigned cs with
    | none => readSpecial cs
    | some (negative, ds, rest) =>
      match readFloat? negative ds rest with
      | none => none
      | some (some r) => some r
      | some none => readInteger cs

end Readout.Toml
