import Readout.Scalar

/-!
# Polygons

A point lies inside a closed polygon when the ray from it to the right crosses an odd number of
edges. Each edge runs from the previous vertex to its own, the first one from the last vertex.
-/
namespace Readout.Polygon

variable {α : Type} [Scalar α]

/-- The edge from `q` to `p` passes the height of the point to the right of it. -/
def crosses (x y : α) (p q : α × α) : Bool :=
  (Scalar.below y p.2 != Scalar.below y q.2) &&
    Scalar.below x ((q.1 - p.1) * (y - p.2) / (q.2 - p.2) + p.1)

def crossings (x y : α) (previous : α × α) : List (α × α) → Nat
  | [] => 0
  | p :: rest => (crosses x y p previous).toNat + crossings x y p rest

/-- Fewer than three vertices enclose nothing. -/
def contains (x y : α) (polygon : List (α × α)) : Bool :=
  match polygon.getLast? with
  | none => false
  | some last => 3 ≤ polygon.length && crossings x y last polygon % 2 == 1

end Readout.Polygon
