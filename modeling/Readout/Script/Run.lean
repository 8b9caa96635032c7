import Readout.Script.Tree
import Readout.Word

/-!
# Running scripts

Scripts run on a scope and may take a million operations. Integers are checked, integers mixed
with doubles count as doubles, and an index below zero counts from the end. A fault ends the run;
its kind is kept, its wording is not part of any result.
-/
namespace Readout.Script

inductive Fault
  | unknownVariable
  | unknownFunction
  | unknownProperty
  | wrongKind
  | outOfRange
  | overflow
  | divisionByZero
  | thrown
  | tooManyOperations
deriving DecidableEq

def Fault.message : Fault → String
  | unknownVariable => "unknown variable"
  | unknownFunction => "unknown function"
  | unknownProperty => "unknown property"
  | wrongKind => "value of the wrong kind"
  | outOfRange => "index out of range"
  | overflow => "integer overflow"
  | divisionByZero => "division by zero"
  | thrown => "thrown"
  | tooManyOperations => "too many operations"

/-- Why a statement did not run to its end. -/
inductive Exit
  | fault (f : Fault)
  | stop
  | again
  | leave (d : Datum)

structure Machine where
  scope : Scope
  operations : Nat

/-- Variables keep what was assigned to them when a statement is left early. -/
abbrev Eval := ExceptT Exit (StateM Machine)

def maxOperations : Nat := 1000000

namespace Eval

def fail {α : Type} (f : Fault) : Eval α := throw (.fault f)

def ofExcept {α : Type} : Except Fault α → Eval α
  | .ok x => return x
  | .error f => fail f

def spend : Eval Unit := do
  let m ← get
  if m.operations = 0 then fail .tooManyOperations
  else set { m with operations := m.operations - 1 }

def declare (name : String) (d : Datum) : Eval Unit :=
  modify fun m => { m with scope := m.scope.push name d }

def inner {α : Type} (x : Eval α) : Eval α := fun m =>
  let (r, n) := x m
  (r, { n with scope := n.scope.truncate m.scope.length })

end Eval

namespace Datum

def checked (n : Int) : Except Fault Datum :=
  if Word.holdsSigned 64 n then return .int n else throw .overflow

def arithmetic (op : BinaryOp) (a b : Value) : Except Fault Datum :=
  match op with
  | .add => return .float (a + b)
  | .sub => return .float (a - b)
  | .mul => return .float (a * b)
  | .div => return .float (a / b)
  | .equal => return .bool (a.equal b)
  | .unequal => return .bool !(a.equal b)
  | .less => return .bool (Value.below a b)
  | .atMost => return .bool (Value.atMost a b)
  | .greater => return .bool (Value.below b a)
  | .atLeast => return .bool (Value.atMost b a)
  | .rem => throw .wrongKind

def integerArithmetic (op : BinaryOp) (a b : Int) : Except Fault Datum :=
  match op with
  | .add => checked (a + b)
  | .sub => checked (a - b)
  | .mul => checked (a * b)
  | .div => if b = 0 then throw .divisionByZero else checked (Int.tdiv a b)
  | .rem => if b = 0 then throw .divisionByZero else checked (Int.tmod a b)
  | .equal => return .bool (a = b)
  | .unequal => return .bool (a ≠ b)
  | .less => return .bool (a < b)
  | .atMost => return .bool (a ≤ b)
  | .greater => return .bool (b < a)
  | .atLeast => return .bool (b ≤ a)

def textOperation (op : BinaryOp) (a b : String) : Except Fault Datum :=
  match op with
  | .add => return .text (a ++ b)
  | .equal => return .bool (a = b)
  | .unequal => return .bool (a ≠ b)
  | .less => return .bool (a < b)
  | .atMost => return .bool !(b < a)
  | .greater => return .bool (b < a)
  | .atLeast => return .bool !(a < b)
  | _ => throw .wrongKind

/-- Data of different kinds are unequal and have no order. -/
def mixedOperation (op : BinaryOp) : Except Fault Datum :=
  match op with
  | .equal | .less | .atMost | .greater | .atLeast => return .bool false
  | .unequal => return .bool true
  | _ => throw .wrongKind

def operate (op : BinaryOp) : Datum → Datum → Except Fault Datum
  | int a, int b => integerArithmetic op a b
  | text a, text b => textOperation op a b
  | bool a, bool b =>
    match op with
    | .equal => return bool (a = b)
    | .unequal => return bool (a ≠ b)
    | _ => mixedOperation op
  | unit, unit =>
    match op with
    | .equal => return bool true
    | .unequal => return bool false
    | _ => mixedOperation op
  | a, b =>
    match a.number?, b.number? with
    | some x, some y => arithmetic op x y
    | _, _ => mixedOperation op

def negated : Datum → Except Fault Datum
  | int n => checked (-n)
  | float v => return float (-v)
  | _ => throw .wrongKind

/-- Counts from the end for a negative index. -/
def place (size : Nat) (i : Int) : Except Fault Nat :=
  let i := if i < 0 then i + size else i
  if 0 ≤ i ∧ i < size then return i.toNat else throw .outOfRange

def entry : Datum → Datum → Except Fault Datum
  | array items, int i => do return items.getD (← place items.size i) unit
  | map entries, text key => return (entries.lookup key).getD unit
  | _, _ => throw .wrongKind

def setEntry (key : String) (d : Datum) : List (String × Datum) → List (String × Datum)
  | [] => [(key, d)]
  | (k, old) :: rest => if k = key then (k, d) :: rest else (k, old) :: setEntry key d rest

/-- Rewrites the part of a datum that a list of indices leads to. -/
def update (f : Datum → Except Fault Datum) : List Datum → Datum → Except Fault Datum
  | [], d => f d
  | int i :: path, array items => do
    let n ← place items.size i
    let old := items.getD n unit
    return array (items.setIfInBounds n (← update f path old))
  | text key :: path, map entries => do
    return map (setEntry key (← update f path ((entries.lookup key).getD unit)) entries)
  | _ :: _, _ => throw .wrongKind

def length? : Datum → Option Nat
  | array items => some items.size
  | text s => some s.length
  | map entries => some entries.length
  | _ => none

/-- An entry that a map lacks is the unit. -/
def property : Datum → String → Except Fault Datum
  | map entries, name => return (entries.lookup name).getD unit
  | d, name =>
    match name, d.length? with
    | "len", some n => return int n
    | _, _ => throw .unknownProperty

def apply : String → List Datum → Except Fault Datum
  | "is_valid", [float v] => return bool v.isValid
  | "is_valid", [int _] => return bool true
  | "is_invalid", [float v] => return bool !v.isValid
  | "invalid", [] => return float Value.invalid
  | "len", [d] =>
    match d.length? with
    | some n => return int n
    | none => throw .unknownFunction
  | _, _ => throw .unknownFunction

def truth : Datum → Except Fault Bool
  | bool b => return b
  | _ => throw .wrongKind

/-- The integers of a range, or the items of an array. A longer range than the operations allow
for is cut, since each item costs an operation. -/
def items : Datum → Except Fault (List Datum)
  | range first stop =>
    let count := min (stop - first).toNat (maxOperations + 1)
    return (List.range count).map fun (k : Nat) => int (first + k)
  | array items => return items.toList
  | _ => throw .wrongKind

end Datum

namespace Eval

mutual

def expression : Nat → Expr → Eval Datum
  | 0, _ => fail .tooManyOperations
  | fuel + 1, e => do
    spend
    match e with
    | .literal d => return d
    | .variable name =>
      match (← get).scope.find? name with
      | some d => return d
      | none => fail .unknownVariable
    | .array items => return .array (← expressions fuel items).toArray
    | .negate e => do ofExcept (← expression fuel e).negated
    | .invert e => do return .bool !(← ofExcept (← expression fuel e).truth)
    | .binary op a b => do
      let x ← expression fuel a
      let y ← expression fuel b
      ofExcept (Datum.operate op x y)
    | .both a b => do
      if ← condition fuel a then return .bool (← condition fuel b) else return .bool false
    | .either a b => do
      if ← condition fuel a then return .bool true else return .bool (← condition fuel b)
    | .range a b closed => do
      match ← expression fuel a, ← expression fuel b with
      | .int first, .int last => return .range first (if closed then last + 1 else last)
      | _, _ => fail .wrongKind
    | .index a i => do
      let container ← expression fuel a
      ofExcept (container.entry (← expression fuel i))
    | .property a name => do ofExcept ((← expression fuel a).property name)
    | .call name arguments => do ofExcept (Datum.apply name (← expressions fuel arguments))
    | .statement s => statement fuel s

def expressions : Nat → List Expr → Eval (List Datum)
  | 0, _ => fail .tooManyOperations
  | _, [] => return []
  | fuel + 1, e :: rest => do
    let d ← expression fuel e
    return d :: (← expressions fuel rest)

def condition : Nat → Expr → Eval Bool
  | 0, _ => fail .tooManyOperations
  | fuel + 1, e => do ofExcept (← expression fuel e).truth

def statement : Nat → Stmt → Eval Datum
  | 0, _ => fail .tooManyOperations
  | fuel + 1, s => do
    spend
    match s with
    | .value e => expression fuel e
    | .declare name none => do
      declare name .unit
      return .unit
    | .declare name (some e) => do
      declare name (← expression fuel e)
      return .unit
    | .assign name path op e => do
      let d ← expression fuel e
      let path ← expressions fuel path
      let m ← get
      match m.scope.find? name with
      | none => fail .unknownVariable
      | some old =>
        let new ← ofExcept (old.update (fun x =>
          match op with
          | none => return d
          | some op => Datum.operate op x d) path)
        set { m with scope := m.scope.assign name new }
        return .unit
    | .branch c yes no => do
      if ← condition fuel c then inner (statements fuel yes) else inner (statements fuel no)
    | .block body => inner (statements fuel body)
    | .cycle c body => do
      rounds fuel c body
      return .unit
    | .each name items body => do
      let ds ← ofExcept (← expression fuel items).items
      visits fuel name body ds
      return .unit
    | .raise none => fail .thrown
    | .raise (some e) => do
      let _ ← expression fuel e
      fail .thrown
    | .stop => throw .stop
    | .again => throw .again
    | .leave none => throw (.leave .unit)
    | .leave (some e) => do throw (.leave (← expression fuel e))

def statements : Nat → List Stmt → Eval Datum
  | 0, _ => fail .tooManyOperations
  | _, [] => return .unit
  | fuel + 1, [s] => statement fuel s
  | fuel + 1, s :: rest => do
    let _ ← statement fuel s
    statements fuel rest

def round : Nat → Option Expr → List Stmt → Eval Bool
  | 0, _, _ => fail .tooManyOperations
  | fuel + 1, c, body => do
    spend
    let goOn ← match c with
      | none => pure true
      | some e => condition fuel e
    if goOn then
      fun m =>
        match inner (statements fuel body) m with
        | (.ok _, m) | (.error .again, m) => (.ok true, m)
        | (.error .stop, m) => (.ok false, m)
        | (.error e, m) => (.error e, m)
    else return false

def rounds : Nat → Option Expr → List Stmt → Eval Unit
  | 0, _, _ => fail .tooManyOperations
  | fuel + 1, c, body => fun m =>
    match round fuel c body m with
    | (.ok true, m) => rounds fuel c body m
    | (.ok false, m) => (.ok (), m)
    | (.error e, m) => (.error e, m)

def visits : Nat → String → List Stmt → List Datum → Eval Unit
  | 0, _, _, _ => fail .tooManyOperations
  | _, _, _, [] => return
  | fuel + 1, name, body, d :: rest => fun m =>
    match inner (do declare name d; round fuel none body) m with
    | (.ok true, m) => visits fuel name body rest m
    | (.ok false, m) => (.ok (), m)
    | (.error e, m) => (.error e, m)

end

/-- Every call spends an operation or goes down the tree, so this depth is never reached. -/
def depth : Nat := 3 * maxOperations

end Eval

def run (body : List Stmt) (scope : Scope) : Except Fault (Datum × Scope) :=
  match Eval.statements Eval.depth body ⟨scope, maxOperations⟩ with
  | (.ok d, m) => .ok (d, m.scope)
  | (.error (.leave d), m) => .ok (d, m.scope)
  | (.error (.fault f), _) => .error f
  | (.error _, _) => .error .wrongKind

end Readout.Script
