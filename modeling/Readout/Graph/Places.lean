/-!
# Places

Nodes are numbered as they are added and stand in the order of a key. Sorting their numbers tells
which node stands in each place; turned around, this tells the place of each node, and every node
is put there.
-/
namespace Readout

/-- A node with the number of its kind under which it was added. -/
structure Numbered (α : Type) where
  index : Nat
  node : α

def numbered {α : Type} (nodes : List α) : List (Numbered α) :=
  nodes.zipIdx.map fun (n, i) => ⟨i, n⟩

/-- The numbers of nodes in the order of a key; nodes of one key keep their order. -/
def orderOf {α : Type} (key : α → Nat) (nodes : List α) : List Nat :=
  let keys := (nodes.map key).toArray
  (List.range nodes.length).mergeSort fun i j => keys.getD i 0 ≤ keys.getD j 0

/-- Overwrites entries of a list one after the other. -/
def scatter {α : Type} (entries : List α) (writes : List (Nat × α)) : List α :=
  writes.foldl (fun es w => es.set w.1 w.2) entries

/-- The place of each number in an order. -/
def inverse (order : List Nat) : List Nat :=
  scatter (List.replicate order.length 0) order.zipIdx

/-- Puts every item into its place. -/
def arrange {α : Type} (items : List α) (places : List Nat) : List α :=
  (scatter (List.replicate items.length none) (places.zip (items.map some))).filterMap id

def sortBy {α : Type} (key : α → Nat) (nodes : List α) : List (Numbered α) :=
  arrange (numbered nodes) (inverse (orderOf key nodes))

end Readout
