/-!
# Quoted text

Names that come from outside are quoted in messages. Quotes and backslashes get a backslash,
the usual control characters their letter, and other characters that do not print the hexadecimal
number of their code point.
-/
namespace Readout.Quoted

def hexadecimal (n : Nat) : String := String.ofList (Nat.toDigits 16 n)

/-- Control characters, format characters and combining marks of the common blocks. -/
def isHidden (c : Char) : Bool :=
  let n := c.toNat
  n < 0x20 || (0x7f ≤ n && n ≤ 0xa0) || n == 0xad || (0x300 ≤ n && n ≤ 0x36f) ||
    (0x2000 ≤ n && n ≤ 0x200f) || (0x2028 ≤ n && n ≤ 0x202f) || (0x205f ≤ n && n ≤ 0x206f) ||
    n == 0x3000 || (0xe000 ≤ n && n ≤ 0xf8ff) || n == 0xfeff || (0xfff0 ≤ n && n ≤ 0xfffb) ||
    n ≥ 0xe0000

def character (c : Char) : String :=
  if c = '"' then "\\\""
  else if c = '\\' then "\\\\"
  else if c = '\n' then "\\n"
  else if c = '\r' then "\\r"
  else if c = '\t' then "\\t"
  else if c.toNat = 0 then "\\0"
  else if isHidden c then "\\u\x7b" ++ hexadecimal c.toNat ++ "\x7d"
  else c.toString

def quote (s : String) : String := "\"" ++ String.join (s.toList.map character) ++ "\""

end Readout.Quoted
