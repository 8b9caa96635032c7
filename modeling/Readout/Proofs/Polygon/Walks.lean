import Mathlib.Data.List.Rotate
import Readout.Polygon

/-!
# Closed walks

The edges of a polygon are the steps of a walk through its vertices that ends where it begins. How
many of these steps a relation selects depends neither on where the walk begins nor, if the relation
is symmetric, on its direction. What a chord cuts off is two such walks, which both take the chord.
-/
namespace Readout.Polygon

section Walk

variable {α : Type} {selects : α → α → Bool}

/-- How many steps of the walk are selected. A step is given by its end and its beginning. -/
def walk (selects : α → α → Bool) : List α → Nat
  | p :: q :: rest => (selects q p).toNat + walk selects (q :: rest)
  | _ => 0

/-- The steps of the walk that ends where it begins. -/
def closedWalk (selects : α → α → Bool) (l : List α) : Nat :=
  match l.getLast? with
  | none => 0
  | some last => walk selects (last :: l)

@[simp] theorem walk_singleton (p : α) : walk selects [p] = 0 := rfl

@[simp] theorem walk_cons_cons (p q : α) (l : List α) :
    walk selects (p :: q :: l) = (selects q p).toNat + walk selects (q :: l) := rfl

theorem walk_append (selects : α → α → Bool) (l m : List α) (p : α) :
    walk selects (l ++ p :: m) = walk selects (l ++ [p]) + walk selects (p :: m) := by
  induction l with
  | nil => simp
  | cons q l ih =>
    cases l with
    | nil => simp
    | cons r l => simpa [Nat.add_assoc] using ih

theorem walk_concat (selects : α → α → Bool) (l : List α) (p q : α) :
    walk selects (l ++ [p, q]) = walk selects (l ++ [p]) + (selects q p).toNat := by
  simpa using walk_append selects l [q] p

theorem walk_reverse (hsymm : ∀ p q, selects p q = selects q p) (l : List α) :
    walk selects l.reverse = walk selects l := by
  induction l with
  | nil => rfl
  | cons p l ih =>
    cases l with
    | nil => rfl
    | cons q l =>
      have hends : (p :: q :: l).reverse = l.reverse ++ [q, p] := by simp
      have htail : l.reverse ++ [q] = (q :: l).reverse := by simp
      rw [hends, walk_concat, htail, ih, walk_cons_cons, hsymm p q, Nat.add_comm]

@[simp] theorem closedWalk_concat (l : List α) (p : α) :
    closedWalk selects (l ++ [p]) = walk selects (p :: l ++ [p]) := by
  simp [closedWalk]

theorem closedWalk_cons (p : α) (l : List α) :
    closedWalk selects (p :: l) = walk selects (p :: l ++ [p]) := by
  cases l using List.reverseRecOn with
  | nil => rfl
  | append_singleton l q =>
    have hwalk := walk_concat selects (p :: l) q p
    rw [← List.cons_append, closedWalk_concat, List.cons_append, List.cons_append, walk_cons_cons,
      Nat.add_comm, ← List.cons_append]
    simpa using hwalk.symm

theorem closedWalk_rotate (l : List α) (n : Nat) :
    closedWalk selects (l.rotate n) = closedWalk selects l := by
  induction n generalizing l with
  | zero => simp
  | succ n ih =>
    cases l with
    | nil => simp
    | cons p l => rw [List.rotate_cons_succ, ih, closedWalk_concat, closedWalk_cons]

theorem closedWalk_append_comm (l m : List α) :
    closedWalk selects (l ++ m) = closedWalk selects (m ++ l) := by
  rw [← List.rotate_append_length_eq l m, closedWalk_rotate]

theorem closedWalk_reverse (hsymm : ∀ p q, selects p q = selects q p) (l : List α) :
    closedWalk selects l.reverse = closedWalk selects l := by
  cases l with
  | nil => rfl
  | cons p l =>
    have hreverse : p :: l.reverse ++ [p] = (p :: l ++ [p]).reverse := by simp
    rw [List.reverse_cons, closedWalk_concat, hreverse, walk_reverse hsymm, closedWalk_cons]

theorem closedWalk_repeat (hself : ∀ p, selects p p = false) (l m : List α) (p : α) :
    closedWalk selects (l ++ p :: p :: m) = closedWalk selects (l ++ p :: m) := by
  rw [closedWalk_append_comm, closedWalk_append_comm l]
  simp [closedWalk_cons, hself]

/-- Both walks that a chord cuts off take it, in opposite directions. -/
theorem closedWalk_chord (selects : α → α → Bool) (l m r : List α) (p q : α) :
    closedWalk selects (p :: m ++ [q]) + closedWalk selects (q :: r ++ l ++ [p]) =
      closedWalk selects (l ++ p :: m ++ q :: r) + (selects p q).toNat + (selects q p).toNat := by
  have hwhole : closedWalk selects (l ++ p :: m ++ q :: r) =
      walk selects (p :: m ++ [q]) + walk selects (q :: r ++ l ++ [p]) := by
    rw [List.append_assoc, closedWalk_append_comm]
    have hsplit := walk_append selects (p :: m) (r ++ l ++ [p]) q
    simpa [closedWalk_cons] using hsplit
  rw [hwhole, closedWalk_concat, closedWalk_concat]
  simp only [List.cons_append, walk_cons_cons]
  omega

end Walk

variable {α : Type} [Scalar α] {x y : α}

theorem crossings_eq_walk (p : α × α) (l : List (α × α)) :
    crossings x y p l = walk (crosses x y) (p :: l) := by
  induction l generalizing p with
  | nil => rfl
  | cons q l ih => rw [crossings, ih, walk_cons_cons]

theorem contains_eq_closedWalk (polygon : List (α × α)) :
    contains x y polygon = (decide (3 ≤ polygon.length) &&
      closedWalk (crosses x y) polygon % 2 == 1) := by
  rw [contains, closedWalk]
  cases h : polygon.getLast? with
  | none => simp
  | some last => simp [crossings_eq_walk]

theorem contains_rotated {polygon other : List (α × α)} (h : polygon ~r other) :
    contains x y other = contains x y polygon := by
  obtain ⟨n, rfl⟩ := h
  simp [contains_eq_closedWalk, closedWalk_rotate]

/-- With edges that can be taken either way, fewer than three vertices enclose nothing anyway. -/
theorem contains_eq_odd (hsymm : ∀ p q, crosses x y p q = crosses x y q p)
    (hself : ∀ p, crosses x y p p = false) (polygon : List (α × α)) :
    contains x y polygon = (closedWalk (crosses x y) polygon % 2 == 1) := by
  rw [contains_eq_closedWalk]
  match polygon with
  | [] => rfl
  | [p] => simp [closedWalk, hself]
  | [p, q] =>
    cases h : crosses x y p q <;> simp [closedWalk, hsymm q p, h]
  | _ :: _ :: _ :: _ => simp

end Readout.Polygon
