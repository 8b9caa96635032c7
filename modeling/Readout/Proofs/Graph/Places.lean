import Mathlib.Data.List.Nodup
import Readout.Graph.Places

/-!
# Nodes in their places

A list of numbers in some order and the places of the numbers turn each other around
(`getElem?_inverse`), so no item is lost and none takes the place of another when all are put into
their places (`arrange_inverse`). For the order of a key this is the stable sort of the numbered
nodes (`sortBy_eq`), and the way over the places leads back to each of them (`getElem?_place`).
-/
namespace Readout

section Scatter

variable {α : Type} {entries : List α} {writes : List (Nat × α)} {k : Nat}

@[simp] theorem length_scatter (entries : List α) (writes : List (Nat × α)) :
    (scatter entries writes).length = entries.length := by
  induction writes generalizing entries with
  | nil => rfl
  | cons w writes ih =>
    rw [scatter, List.foldl_cons, ← scatter, ih, List.length_set]

theorem getElem?_scatter_of_not_mem (h : k ∉ writes.map Prod.fst) :
    (scatter entries writes)[k]? = entries[k]? := by
  induction writes generalizing entries with
  | nil => rfl
  | cons w writes ih =>
    obtain ⟨hw, hrest⟩ := not_or.1 (mt List.mem_cons.2 h)
    rw [scatter, List.foldl_cons, ← scatter, ih hrest, List.getElem?_set_ne (Ne.symm hw)]

/-- What is written last stays, and each entry is written once. -/
theorem getElem?_scatter {x : α} (hn : (writes.map Prod.fst).Nodup) (hw : (k, x) ∈ writes)
    (hk : k < entries.length) : (scatter entries writes)[k]? = some x := by
  induction writes generalizing entries with
  | nil => cases hw
  | cons w writes ih =>
    obtain ⟨hfirst, hn⟩ := List.nodup_cons.1 hn
    rw [scatter, List.foldl_cons, ← scatter]
    rcases List.mem_cons.1 hw with rfl | hw
    · rw [getElem?_scatter_of_not_mem hfirst, List.getElem?_set_self hk]
    · exact ih hn hw (by rwa [List.length_set])

end Scatter

section Inverse

variable {α : Type} {items : List α} {order : List Nat} {p i : Nat}

@[simp] theorem length_inverse (order : List Nat) : (inverse order).length = order.length := by
  rw [inverse, length_scatter, List.length_replicate]

theorem getElem?_inverse (h : order.Perm (List.range order.length)) (hp : order[p]? = some i) :
    (inverse order)[i]? = some p := by
  refine getElem?_scatter ?_ (List.mk_mem_zipIdx_iff_getElem?.2 hp) ?_
  · rw [List.zipIdx_map_fst]
    exact h.nodup_iff.2 List.nodup_range
  · rw [List.length_replicate]
    exact List.mem_range.1 (h.subset (List.mem_of_getElem? hp))

theorem exists_getElem?_order (h : order.Perm (List.range order.length)) (hi : i < order.length) :
    ∃ p, order[p]? = some i ∧ (inverse order)[i]? = some p := by
  obtain ⟨p, hp⟩ := List.mem_iff_getElem?.1 (h.symm.subset (List.mem_range.2 hi))
  exact ⟨p, hp, getElem?_inverse h hp⟩

theorem getElem?_order (h : order.Perm (List.range order.length))
    (hi : (inverse order)[i]? = some p) : order[p]? = some i := by
  have hlt := (List.getElem?_eq_some_iff.1 hi).1
  rw [length_inverse] at hlt
  obtain ⟨q, hq, hiq⟩ := exists_getElem?_order h hlt
  obtain rfl : q = p := Option.some.inj (hiq.symm.trans hi)
  exact hq

theorem nodup_inverse (h : order.Perm (List.range order.length)) : (inverse order).Nodup := by
  rw [List.nodup_iff_getElem?_ne_getElem?]
  intro i j hij hj heq
  rw [length_inverse] at hj
  obtain ⟨p, hp, hjp⟩ := exists_getElem?_order h hj
  have hip := getElem?_order h (heq.trans hjp)
  rw [hp] at hip
  exact Nat.ne_of_gt hij (Option.some.inj hip)

/-- Every place is taken, by the item whose number stands there. -/
theorem arrange_inverse (h : order.Perm (List.range items.length)) :
    arrange items (inverse order) = order.filterMap fun i => items[i]? := by
  have hlength : order.length = items.length := by simpa using h.length_eq
  have hperm : order.Perm (List.range order.length) := hlength ▸ h
  have hnodup : (((inverse order).zip (items.map some)).map Prod.fst).Nodup := by
    rw [List.map_fst_zip (by simp [hlength])]
    exact nodup_inverse hperm
  have hplaced : scatter (List.replicate items.length none)
      ((inverse order).zip (items.map some)) = order.map fun i => items[i]? := by
    refine List.ext_getElem? fun p => ?_
    rw [List.getElem?_map]
    by_cases hp : p < order.length
    · obtain ⟨i, hi⟩ : ∃ i, order[p]? = some i := ⟨_, List.getElem?_eq_getElem hp⟩
      have hlt : i < items.length := List.mem_range.1 (h.subset (List.mem_of_getElem? hi))
      have hmem : (p, some items[i]) ∈ (inverse order).zip (items.map some) := by
        refine List.mem_of_getElem? (i := i) ?_
        rw [List.getElem?_zip_eq_some]
        exact ⟨getElem?_inverse hperm hi, by simp [hlt]⟩
      rw [getElem?_scatter hnodup hmem (by simpa [← hlength] using hp), hi]
      simp [hlt]
    · have hlong : order.length ≤ p := Nat.not_lt.1 hp
      rw [List.getElem?_eq_none (by simpa [← hlength] using hlong), List.getElem?_eq_none hlong]
      rfl
  rw [arrange, hplaced, List.filterMap_map]
  rfl

end Inverse

section Sorting

variable {α : Type} {nodes : List α}

theorem map_node_numbered (nodes : List α) : (numbered nodes).map Numbered.node = nodes := by
  simp [numbered, Function.comp_def]

theorem map_index_numbered (nodes : List α) :
    (numbered nodes).map Numbered.index = List.range nodes.length := by
  simp [numbered, Function.comp_def, List.range_eq_range']

theorem getElem?_numbered (nodes : List α) (i : Nat) :
    (numbered nodes)[i]? = nodes[i]?.map fun n => ⟨i, n⟩ := by
  simp [numbered, Function.comp_def]

theorem getElem?_of_mem_numbered {n : Numbered α} (h : n ∈ numbered nodes) :
    nodes[n.index]? = some n.node := by
  obtain ⟨i, hi⟩ := List.mem_iff_getElem?.1 h
  rw [getElem?_numbered] at hi
  obtain ⟨x, hx, rfl⟩ := Option.map_eq_some_iff.1 hi
  exact hx

theorem orderOf_eq (key : α → Nat) (nodes : List α) :
    orderOf key nodes =
      ((numbered nodes).mergeSort fun a b => key a.node ≤ key b.node).map Numbered.index := by
  have hkey : ∀ n ∈ numbered nodes, (nodes.map key).toArray.getD n.index 0 = key n.node := by
    intro n hn
    simp [Array.getD_eq_getD_getElem?, getElem?_of_mem_numbered hn]
  rw [orderOf, ← map_index_numbered]
  refine (List.map_mergeSort fun a ha b hb => ?_).symm
  rw [hkey a ha, hkey b hb]

theorem orderOf_perm (key : α → Nat) (nodes : List α) :
    (orderOf key nodes).Perm (List.range nodes.length) := by
  rw [orderOf_eq, ← map_index_numbered]
  exact (List.mergeSort_perm _ _).map _

/-- To sort numbers and put nodes into their places is to sort the nodes. -/
theorem sortBy_eq (key : α → Nat) (nodes : List α) :
    sortBy key nodes = (numbered nodes).mergeSort fun a b => key a.node ≤ key b.node := by
  have hlength : (numbered nodes).length = nodes.length := by simp [numbered]
  have hback : ∀ n ∈ (numbered nodes).mergeSort (fun a b => key a.node ≤ key b.node),
      (numbered nodes)[n.index]? = some n := by
    intro n hn
    rw [getElem?_numbered, getElem?_of_mem_numbered (List.mem_mergeSort.1 hn)]
    rfl
  rw [sortBy, arrange_inverse (by rw [hlength]; exact orderOf_perm key nodes), orderOf_eq,
    List.filterMap_map]
  exact (List.filterMap_congr hback).trans List.filterMap_some

/-- What stands in a place is the node whose number stands there in the order. -/
theorem getElem?_sortBy (key : α → Nat) (nodes : List α) (place : Nat) :
    (sortBy key nodes)[place]? =
      (orderOf key nodes)[place]?.bind fun i => (numbered nodes)[i]? := by
  rw [sortBy_eq, orderOf_eq, List.getElem?_map]
  cases h : ((numbered nodes).mergeSort fun a b => key a.node ≤ key b.node)[place]? with
  | none => rfl
  | some n =>
    have hn : n ∈ numbered nodes := List.mem_mergeSort.1 (List.mem_of_getElem? h)
    rw [Option.map_some, Option.bind_some, getElem?_numbered, getElem?_of_mem_numbered hn]
    rfl

/-- The way over its place leads from a number to the node. -/
theorem getElem?_place (key : α → Nat) (nodes : List α) (i : Nat) :
    ((inverse (orderOf key nodes))[i]?.bind fun place => (sortBy key nodes)[place]?) =
      (numbered nodes)[i]? := by
  have hperm := orderOf_perm key nodes
  have hlength : (orderOf key nodes).length = nodes.length := by simpa using hperm.length_eq
  rw [← hlength] at hperm
  by_cases hi : i < nodes.length
  · obtain ⟨place, horder, hplace⟩ := exists_getElem?_order hperm (hlength.symm ▸ hi)
    rw [hplace, Option.bind_some, getElem?_sortBy, horder, Option.bind_some]
  · have hlong : nodes.length ≤ i := Nat.not_lt.1 hi
    rw [List.getElem?_eq_none (by rwa [length_inverse, hlength]), getElem?_numbered,
      List.getElem?_eq_none hlong]
    rfl

/-- Keys that are taken along in the order of the numbers stay with their nodes. -/
theorem map_key_sortBy (key : α → Nat) (nodes : List α) :
    ((sortBy key nodes).map fun n => key n.node) =
      (orderOf key nodes).map fun i => (nodes.map key).getD i 0 := by
  rw [sortBy_eq, orderOf_eq, List.map_map]
  refine List.map_congr_left fun n hn => ?_
  simp [getElem?_of_mem_numbered (List.mem_mergeSort.1 hn)]

theorem find?_sortBy (key : α → Nat) (nodes : List α) (i : Nat) :
    ((sortBy key nodes).find? fun n => n.index = i).map Numbered.node = nodes[i]? := by
  have hmem : ∀ n, n ∈ sortBy key nodes ↔ n ∈ numbered nodes := fun n => by
    rw [sortBy_eq, List.mem_mergeSort]
  cases hf : (sortBy key nodes).find? fun n => n.index = i with
  | some n =>
    have hindex : n.index = i := by simpa using List.find?_some hf
    rw [Option.map_some, ← hindex,
      getElem?_of_mem_numbered ((hmem n).1 (List.mem_of_find?_eq_some hf))]
  | none =>
    rw [Option.map_none, eq_comm, List.getElem?_eq_none_iff]
    by_contra hi
    obtain ⟨x, hx⟩ : ∃ x, nodes[i]? = some x :=
      ⟨_, List.getElem?_eq_getElem (Nat.not_le.1 hi)⟩
    have hn : (numbered nodes)[i]? = some ⟨i, x⟩ := by
      rw [getElem?_numbered, hx]
      rfl
    have hnot := List.find?_eq_none.1 hf _ ((hmem _).2 (List.mem_of_getElem? hn))
    simp at hnot

end Sorting

end Readout
