import Readout.Scalar

/-!
# Equations of two operands

A fixed table of equations. A quotient has no value where its divisor is zero.
-/
namespace Readout

inductive Equation
  | sum
  | difference
  | sumOverDifference
  | differenceOverSum
  | aOverDifference
  | differenceOverA
  | product
  | quotient
deriving DecidableEq

namespace Equation

def table : List Equation :=
  [sum, difference, sumOverDifference, differenceOverSum, aOverDifference, differenceOverA,
    product, quotient]

def ofIndex? (i : Nat) : Option Equation := table[i]?

def name : Equation → String
  | sum => "sum"
  | difference => "difference"
  | sumOverDifference => "sum_over_difference"
  | differenceOverSum => "difference_over_sum"
  | aOverDifference => "a_over_difference"
  | differenceOverA => "difference_over_a"
  | product => "product"
  | quotient => "quotient"

def text : Equation → String
  | sum => "a + b"
  | difference => "a - b"
  | sumOverDifference => "(a + b) / (a - b)"
  | differenceOverSum => "(a - b) / (a + b)"
  | aOverDifference => "a / (a - b)"
  | differenceOverA => "(a - b) / a"
  | product => "a * b"
  | quotient => "a / b"

variable {α : Type} [Scalar α]

def divide (a b : α) : Option α := if Scalar.isZero b then none else some (a / b)

def apply (e : Equation) (a b : α) : Option α :=
  match e with
  | sum => some (a + b)
  | difference => some (a - b)
  | sumOverDifference => divide (a + b) (a - b)
  | differenceOverSum => divide (a - b) (a + b)
  | aOverDifference => divide a (a - b)
  | differenceOverA => divide (a - b) a
  | product => some (a * b)
  | quotient => divide a b

end Equation

end Readout
