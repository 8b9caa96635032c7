import Readout.Error
import Readout.Script.Grammar
import Readout.Script.Run

/-!
# Expressions

An expression computes its outputs by a script. A first script declares the outputs: it sees the
inputs as maps and returns five items for each output, its name, unit and size and the limits,
either one number for all elements or one for each. The second script runs on every event with
all pipes in scope as arrays. Here a script is any function of its scope, so that nothing that is
stated about expressions hangs on the script language.
-/
namespace Readout

open Script (Datum Scope)

/-- An output as it was declared. Both lists of limits are as long as the output. -/
structure Declaration where
  name : String
  unit : String
  lower : List Value
  upper : List Value
deriving DecidableEq

def Declaration.size (d : Declaration) : Nat := d.lower.length

structure Expression where
  inputNames : List String
  declarations : List Declaration
  program : Scope → Option Scope
  /-- Set once the script has failed. -/
  failed : Bool

namespace Declaration

def text? : Datum → Option String
  | .text s => some s
  | _ => none

def positive? : Datum → Option Nat
  | .int n => if 0 < n then some n.toNat else none
  | _ => none

/-- One number stands for all elements. -/
def limits (d : Datum) (size : Nat) (what output : String) : Except ExpressionError (List Value) :=
  match d.number?, d.array? with
  | some v, _ => return List.replicate size v
  | none, none => throw (.limitKind output what)
  | none, some items =>
    if items.size ≠ size then throw (.limitCount output what items.size size)
    else
      match items.toList.mapM Datum.number? with
      | some vs => return vs
      | none => throw (.limitItem output what)

def ofItems (seen : List String) (name label size lower upper : Datum) :
    Except ExpressionError Declaration := do
  let some name := text? name | throw .nameNotText
  if name = "" then throw .emptyName
  if seen.contains name then throw (.duplicateName name)
  let some label := text? label | throw (.unitNotText name)
  let some size := positive? size | throw (.size name)
  if lower.isArray ≠ upper.isArray then throw (.mixedLimits name)
  let low ← limits lower size "lower limit" name
  let high ← limits upper size "upper limit" name
  return ⟨name, label, low, high⟩

/-- Reads five items for each declaration; names that were declared before are refused. -/
def ofList (seen : List String) : List Datum → Except ExpressionError (List Declaration)
  | name :: label :: size :: lower :: upper :: rest => do
    let d ← ofItems seen name label size lower upper
    return d :: (← ofList (d.name :: seen) rest)
  | _ => return []

def ofResult (d : Datum) : Except ExpressionError (List Declaration) :=
  match d.array? with
  | none => throw .notArray
  | some items =>
    if items.size = 0 ∨ items.size % 5 ≠ 0 then throw (.notFive items.size)
    else ofList [] items.toList

end Declaration

namespace Expression

/-- The unit, size and limits of an input as a map. -/
def describe (label : String) (lower upper : List Value) : Datum :=
  .map [("unit", .text label), ("size", .int lower.length), ("lower_limits", Datum.ofValues lower),
    ("upper_limits", Datum.ofValues upper)]

/-- Binds names from left to right, so that the last of equal names counts. -/
def bind (names : List String) (data : List Datum) : Scope :=
  (names.zip data).foldl (fun s (n, d) => s.push n d) Scope.empty

def names (e : Expression) : List String := e.inputNames ++ e.declarations.map Declaration.name

/-- The elements of an array that are numbers; everything else is invalid. -/
def collect (d : Option Datum) (size : Nat) : List Value :=
  match d.bind Datum.array? with
  | none => List.replicate size Value.invalid
  | some items =>
    (List.range size).map fun i => (items[i]?.bind Datum.number?).getD Value.invalid

/-- The contents of all outputs from the contents of all pipes, nothing if the script fails. -/
def evaluate (e : Expression) (inputs outputs : List (List Value)) : Option (List (List Value)) :=
  (e.program (bind e.names ((inputs ++ outputs).map Datum.ofValues))).map fun scope =>
    e.declarations.map fun d => collect (scope.find? d.name) d.size

def programOf (body : List Script.Stmt) (scope : Scope) : Option Scope :=
  match Script.run body scope with
  | .ok (_, scope) => some scope
  | .error _ => none

def compile (name : ScriptName) (text : String) : Except ExpressionError (List Script.Stmt) :=
  match Script.parse? text with
  | some body => return body
  | none => throw (.malformed name "not a script")

/-- Declares outputs and refuses one that has the name of an input. -/
def declare (inputNames : List String) (result : Datum) :
    Except ExpressionError (List Declaration) := do
  let ds ← Declaration.ofResult result
  match ds.find? fun d => inputNames.contains d.name with
  | some d => throw (.shadowsInput d.name)
  | none => return ds

end Expression

end Readout
