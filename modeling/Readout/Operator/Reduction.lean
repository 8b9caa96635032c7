import Readout.Scalar

/-!
# Reductions

A reduction makes one number of the selected elements of a list: of their values, or of the
positions at which they stand, weighted by the values. Sums run from left to right, and of equal
extremes the first one counts. Only the number of selected elements is defined if there are none.
-/
namespace Readout

inductive Reduction
  | sum
  | multiplicity
  | min
  | max
  | mean
  | sigma
  | minX
  | maxX
  | meanX
  | sigmaX
deriving DecidableEq

namespace Reduction

def all : List Reduction :=
  [sum, multiplicity, min, max, mean, sigma, minX, maxX, meanX, sigmaX]

def name : Reduction → String
  | sum => "sum"
  | multiplicity => "multiplicity"
  | min => "min"
  | max => "max"
  | mean => "mean"
  | sigma => "sigma"
  | minX => "min_x"
  | maxX => "max_x"
  | meanX => "mean_x"
  | sigmaX => "sigma_x"

variable {α : Type} [Scalar α]

abbrev Selected (α : Type) := List (Nat × α)

def total (s : Selected α) : α := s.foldl (fun t e => t + e.2) Scalar.zero

def moment (s : Selected α) : α := s.foldl (fun t e => t + Scalar.ofNat e.1 * e.2) Scalar.zero

def lowest? (s : Selected α) : Option (Nat × α) :=
  s.foldl (fun best e =>
    match best with
    | none => some e
    | some b => if Scalar.below e.2 b.2 then some e else some b) none

def highest? (s : Selected α) : Option (Nat × α) :=
  s.foldl (fun best e =>
    match best with
    | none => some e
    | some b => if Scalar.below b.2 e.2 then some e else some b) none

def squares (s : Selected α) (mean : α) : α :=
  s.foldl (fun t e => t + (e.2 - mean) * (e.2 - mean)) Scalar.neutral

def weightedSquares (s : Selected α) (mean : α) : α :=
  s.foldl (fun t e => t + e.2 * (Scalar.ofNat e.1 - mean) * (Scalar.ofNat e.1 - mean))
    Scalar.neutral

def meanOf (s : Selected α) : α := total s / Scalar.ofNat s.length

def meanPosition? (s : Selected α) : Option α :=
  if Scalar.isZero (total s) then none else some (moment s / total s)

def apply (r : Reduction) (s : Selected α) : Option α :=
  if r = multiplicity then some (Scalar.ofNat s.length)
  else if s.isEmpty then none
  else
    match r with
    | multiplicity => some (Scalar.ofNat s.length)
    | sum => some (total s)
    | mean => some (meanOf s)
    | sigma => some (Scalar.sqrt (squares s (meanOf s) / Scalar.ofNat s.length))
    | min => (lowest? s).map Prod.snd
    | max => (highest? s).map Prod.snd
    | minX => (lowest? s).map fun e => Scalar.ofNat e.1
    | maxX => (highest? s).map fun e => Scalar.ofNat e.1
    | meanX => meanPosition? s
    | sigmaX => (meanPosition? s).map fun mean =>
        Scalar.sqrt (weightedSquares s mean / total s)

/-- The least of a list, started from a bound above it. A number that cannot be compared is
passed over. -/
def leastOf (start : α) (xs : List α) : α :=
  xs.foldl (fun m x => if Scalar.below x m then x else m) start

def greatestOf (start : α) (xs : List α) : α :=
  xs.foldl (fun m x => if Scalar.below m x then x else m) start

/-- Limits of the result, from the number of elements, the least lower limit and the greatest
upper limit. -/
def limits (r : Reduction) (size : Nat) (lower upper : α) : α × α :=
  match r with
  | sum => (lower, Scalar.ofNat size * upper)
  | multiplicity => (Scalar.zero, Scalar.ofNat size)
  | min | max | mean => (lower, upper)
  | sigma => (Scalar.zero, Scalar.sqrt upper)
  | minX | maxX | meanX => (Scalar.zero, Scalar.ofNat size)
  | sigmaX => (Scalar.zero, Scalar.sqrt (Scalar.ofNat size))

end Reduction

end Readout
