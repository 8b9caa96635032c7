import Readout.Script.Token
import Readout.Script.Tree

/-!
# Script grammar

Scripts are read by recursive descent. Binary operators are read by their strength: the right
operand takes only operators that bind more tightly, so that operators of one strength group to
the left. Statements are separated by semicolons, except behind a block.
-/
namespace Readout.Script

abbrev Parse := StateT (List Token) Option

namespace Parse

def skip (t : Token) : Parse Bool := do
  match ← get with
  | u :: rest => if u = t then do set rest; return true else return false
  | [] => return false

def mark (m : String) : Parse Bool := skip (.mark m)

def keyword (w : String) : Parse Bool := skip (.word w)

def expect (t : Token) : Parse Unit := do
  if !(← skip t) then failure

def keywords : List String :=
  ["let", "const", "if", "else", "while", "loop", "for", "in", "throw", "break", "continue",
    "return", "true", "false", "fn", "do", "until", "switch", "import", "export", "try", "catch"]

def name : Parse String := do
  match ← get with
  | .word w :: rest => if keywords.contains w then failure else do set rest; return w
  | _ => failure

def atEnd : Parse Bool := do
  match ← get with
  | [] => return true
  | t :: _ => return t = .mark "\x7d"

/-- A binary operator with its strength and what it makes of two operands. -/
def operator? : Token → Option (Nat × (Expr → Expr → Expr))
  | .mark "||" => some (1, .either)
  | .mark "&&" => some (2, .both)
  | .mark "==" => some (3, .binary .equal)
  | .mark "!=" => some (3, .binary .unequal)
  | .mark "<" => some (4, .binary .less)
  | .mark "<=" => some (4, .binary .atMost)
  | .mark ">" => some (4, .binary .greater)
  | .mark ">=" => some (4, .binary .atLeast)
  | .mark ".." => some (5, fun a b => .range a b false)
  | .mark "..=" => some (5, fun a b => .range a b true)
  | .mark "+" => some (6, .binary .add)
  | .mark "-" => some (6, .binary .sub)
  | .mark "*" => some (7, .binary .mul)
  | .mark "/" => some (7, .binary .div)
  | .mark "%" => some (7, .binary .rem)
  | _ => none

/-- The operator that an assignment applies first, if the token is an assignment. -/
def assignment? : Token → Option (Option BinaryOp)
  | .mark "=" => some none
  | .mark "+=" => some (some .add)
  | .mark "-=" => some (some .sub)
  | .mark "*=" => some (some .mul)
  | .mark "/=" => some (some .div)
  | .mark "%=" => some (some .rem)
  | _ => none

/-- A variable, or a place inside of it. -/
def place? : Expr → Option (String × List Expr)
  | .variable name => some (name, [])
  | .index container i => do
    let (name, path) ← place? container
    return (name, path ++ [i])
  | .property container p => do
    let (name, path) ← place? container
    return (name, path ++ [.literal (.text p)])
  | _ => none

def startsStatement (t : Token) : Bool :=
  [.mark "\x7b", .word "if", .word "while", .word "loop", .word "for"].contains t

mutual

def expression : Nat → Nat → Parse Expr
  | 0, _ => failure
  | fuel + 1, strength => do operators fuel strength (← operand fuel)

def operators : Nat → Nat → Expr → Parse Expr
  | 0, _, _ => failure
  | fuel + 1, strength, left => do
    match ← get with
    | t :: rest =>
      match operator? t with
      | some (s, build) =>
        if s < strength then return left
        else do
          set rest
          let right ← expression fuel (s + 1)
          operators fuel strength (build left right)
      | none => return left
    | [] => return left

def operand : Nat → Parse Expr
  | 0 => failure
  | fuel + 1 => do
    match ← get with
    | .mark "-" :: rest => do set rest; return .negate (← operand fuel)
    | .mark "!" :: rest => do set rest; return .invert (← operand fuel)
    | .mark "+" :: rest => do set rest; operand fuel
    | .int n :: rest => do set rest; selectors fuel (.literal (.int n))
    | .float v :: rest => do set rest; selectors fuel (.literal (.float v))
    | .text s :: rest => do set rest; selectors fuel (.literal (.text s))
    | .word "true" :: rest => do set rest; return .literal (.bool true)
    | .word "false" :: rest => do set rest; return .literal (.bool false)
    | .mark "(" :: .mark ")" :: rest => do set rest; return .literal .unit
    | .mark "(" :: rest => do
      set rest
      let e ← expression fuel 0
      expect (.mark ")")
      selectors fuel e
    | .mark "[" :: rest => do
      set rest
      selectors fuel (.array (← expressions fuel "]"))
    | t :: _ =>
      if startsStatement t then return .statement (← statement fuel)
      else do
        let n ← name
        if ← mark "(" then selectors fuel (.call n (← expressions fuel ")"))
        else selectors fuel (.variable n)
    | [] => failure

def selectors : Nat → Expr → Parse Expr
  | 0, _ => failure
  | fuel + 1, e => do
    if ← mark "[" then do
      let i ← expression fuel 0
      expect (.mark "]")
      selectors fuel (.index e i)
    else if ← mark "." then do
      let n ← name
      if ← mark "(" then selectors fuel (.call n (e :: (← expressions fuel ")")))
      else selectors fuel (.property e n)
    else return e

def expressions : Nat → String → Parse (List Expr)
  | 0, _ => failure
  | fuel + 1, close => do
    if ← mark close then return []
    let e ← expression fuel 0
    if ← mark "," then return e :: (← expressions fuel close)
    expect (.mark close)
    return [e]

def block : Nat → Parse (List Stmt)
  | 0 => failure
  | fuel + 1 => do
    expect (.mark "\x7b")
    let body ← statements fuel
    expect (.mark "\x7d")
    return body

def statements : Nat → Parse (List Stmt)
  | 0 => failure
  | fuel + 1 => do
    if ← atEnd then return []
    if ← mark ";" then return .value (.literal .unit) :: (← statements fuel)
    let s ← statement fuel
    if ← mark ";" then return s :: (← statements fuel)
    if s.endsWithBlock then return s :: (← statements fuel)
    if ← atEnd then return [s] else failure

def optionalExpression : Nat → Parse (Option Expr)
  | 0 => failure
  | fuel + 1 => do
    if ← atEnd then return none
    if (← get).head? = some (.mark ";") then return none
    return some (← expression fuel 0)

def statement : Nat → Parse Stmt
  | 0 => failure
  | fuel + 1 => do
    if (← get).head? = some (.mark "\x7b") then return .block (← block fuel)
    if ← keyword "if" then branch fuel
    else if ← keyword "while" then do
      let c ← expression fuel 0
      return .cycle (some c) (← block fuel)
    else if ← keyword "loop" then return .cycle none (← block fuel)
    else if ← keyword "for" then do
      let n ← name
      expect (.word "in")
      let items ← expression fuel 0
      return .each n items (← block fuel)
    else if ← keyword "let" then do
      let n ← name
      if ← mark "=" then return .declare n (some (← expression fuel 0))
      return .declare n none
    else if ← keyword "throw" then return .raise (← optionalExpression fuel)
    else if ← keyword "return" then return .leave (← optionalExpression fuel)
    else if ← keyword "break" then return .stop
    else if ← keyword "continue" then return .again
    else do
      let e ← expression fuel 0
      match (← get).head?.bind assignment? with
      | none => return .value e
      | some op => do
        modify (List.drop 1)
        let (n, path) ← place? e
        return .assign n path op (← expression fuel 0)

def branch : Nat → Parse Stmt
  | 0 => failure
  | fuel + 1 => do
    let c ← expression fuel 0
    let yes ← block fuel
    if ← keyword "else" then do
      if ← keyword "if" then return .branch c yes [← branch fuel]
      return .branch c yes (← block fuel)
    return .branch c yes []

end

end Parse

def parse? (text : String) : Option (List Stmt) := do
  let tokens ← Token.ofText? text
  match ← (Parse.statements (12 * tokens.length + 12)).run tokens with
  | (body, []) => return body
  | _ => none

end Readout.Script
