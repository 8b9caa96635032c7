import Mathlib.Data.List.Sort
import Readout.Proofs.Graph.Contained

/-!
# Feeding by module

A walk over the sources of an event ends at the first larger module. The sources stand by module,
and those of one module as they were added, so none of the module is behind that place: the words
go once to each source of the module, in the order in which these were added, however the sources
of the modules were mixed (`Graph.feed_attached`).
-/
namespace Readout

/-- The numbers of the sources of a module, as they were added. -/
def EventPlan.attached (e : EventPlan) (moduleIndex : Nat) : List Nat :=
  (List.range e.sources.length).filter fun i =>
    e.sources[i]?.any fun src => src.moduleIndex = moduleIndex

namespace Slot

/-- Feeds the source with a number, wherever it stands, and no other. -/
def feedNumber (words : List UInt32) (r : List (Numbered Source) × Store) (index : Nat) :
    List (Numbered Source) × Store :=
  match r.1.find? fun n => n.index = index with
  | none => r
  | some n =>
    let (src, st, _) := n.node.feed r.2 words
    (r.1.map fun m => if m.index = index then { m with node := src } else m, st)

/-- The numbers of the sources of a module, as they stand. -/
def numbersOf (moduleIndex : Nat) (ns : List (Numbered Source)) : List Nat :=
  (ns.filter fun n => n.node.moduleIndex = moduleIndex).map Numbered.index

section Numbers

variable {moduleIndex : Nat} {words : List UInt32} {n : Numbered Source}
  {ns : List (Numbered Source)} {st : Store}

theorem mem_numbersOf {i : Nat} :
    i ∈ numbersOf moduleIndex ns ↔ ∃ n ∈ ns, n.node.moduleIndex = moduleIndex ∧ n.index = i := by
  simp [numbersOf, and_assoc]

theorem feedNumber_self (h : ∀ m ∈ ns, m.index ≠ n.index) :
    feedNumber words (n :: ns, st) n.index =
      (⟨n.index, (n.node.feed st words).1⟩ :: ns, (n.node.feed st words).2.1) := by
  have hrest : (ns.map fun m => if m.index = n.index then { m with node :=
      (n.node.feed st words).1 } else m) = ns :=
    (List.map_congr_left fun m hm => if_neg (h m hm)).trans (List.map_id' ns)
  simp [feedNumber, hrest]

theorem feedNumber_cons {index : Nat} (h : n.index ≠ index) :
    feedNumber words (n :: ns, st) index =
      (n :: (feedNumber words (ns, st) index).1, (feedNumber words (ns, st) index).2) := by
  cases hfind : ns.find? (fun m => m.index = index) <;> simp [feedNumber, hfind, h]

theorem foldl_feedNumber_cons {is : List Nat} (h : n.index ∉ is) :
    is.foldl (feedNumber words) (n :: ns, st) =
      (n :: (is.foldl (feedNumber words) (ns, st)).1,
        (is.foldl (feedNumber words) (ns, st)).2) := by
  induction is generalizing ns st with
  | nil => rfl
  | cons i is ih =>
    obtain ⟨hi, his⟩ := not_or.1 (mt List.mem_cons.2 h)
    rw [List.foldl_cons, List.foldl_cons, feedNumber_cons hi, ih his]

/-- No source of the module stands behind the place where the walk ends. -/
theorem feedSources_eq_foldl (hsorted : ns.Pairwise (Numbered.Before Source.moduleIndex))
    (hindex : ns.Pairwise fun m n => m.index ≠ n.index) (st : Store) :
    feedSources moduleIndex words ns st =
      (numbersOf moduleIndex ns).foldl (feedNumber words) (ns, st) := by
  induction ns generalizing st with
  | nil => rfl
  | cons n ns ih =>
    obtain ⟨hbefore, hsorted⟩ := List.pairwise_cons.1 hsorted
    obtain ⟨hne, hindex⟩ := List.pairwise_cons.1 hindex
    have hfresh : n.index ∉ numbersOf moduleIndex ns := fun hmem => by
      obtain ⟨m, hm, -, hmn⟩ := mem_numbersOf.1 hmem
      exact hne m hm hmn.symm
    rw [feedSources]
    split
    · next heq =>
      have hnumbers : numbersOf moduleIndex (n :: ns) =
          n.index :: numbersOf moduleIndex ns := by simp [numbersOf, heq]
      rw [hnumbers, List.foldl_cons, feedNumber_self fun m hm => (hne m hm).symm,
        foldl_feedNumber_cons (n := ⟨n.index, (n.node.feed st words).1⟩) hfresh,
        ← ih hsorted hindex]
    · next hneq =>
      have hskip : numbersOf moduleIndex (n :: ns) = numbersOf moduleIndex ns := by
        simp [numbersOf, hneq]
      rw [hskip]
      split
      · next hlt =>
        have hnone : numbersOf moduleIndex ns = [] := by
          rw [List.eq_nil_iff_forall_not_mem]
          intro i hi
          obtain ⟨m, hm, hmodule, -⟩ := mem_numbersOf.1 hi
          rcases hbefore m hm with hb | ⟨hb, -⟩ <;> omega
        rw [hnone]
        rfl
      · rw [foldl_feedNumber_cons hfresh, ← ih hsorted hindex]

theorem pairwise_numbersOf (hsorted : ns.Pairwise (Numbered.Before Source.moduleIndex)) :
    (numbersOf moduleIndex ns).Pairwise (· < ·) := by
  refine List.pairwise_map.2 ((hsorted.filter _).imp_of_mem fun {m n} hm hn h => ?_)
  have hm : m.node.moduleIndex = moduleIndex := by simpa using (List.mem_filter.1 hm).2
  have hn : n.node.moduleIndex = moduleIndex := by simpa using (List.mem_filter.1 hn).2
  rcases h with h | ⟨-, h⟩
  · omega
  · exact h

theorem numbersOf_resting (moduleIndex : Nat) (ns : List (Numbered Source)) :
    numbersOf moduleIndex (ns.map (Numbered.map Source.resting)) = numbersOf moduleIndex ns := by
  rw [numbersOf, List.filter_map, List.map_map]
  rfl

theorem numbersOf_slot (e : EventPlan) (moduleIndex : Nat) :
    numbersOf moduleIndex e.slot.sources = e.attached moduleIndex := by
  refine (pairwise_numbersOf (pairwise_sortBy _ _)).eq_of_mem_iff
    (List.pairwise_lt_range.filter _) fun i => ?_
  have hmem : ∀ n, n ∈ e.slot.sources ↔ n ∈ numbered e.sources := fun n =>
    (sortBy_perm Source.moduleIndex e.sources).mem_iff
  rw [mem_numbersOf, EventPlan.attached, List.mem_filter, List.mem_range, Option.any_eq_true]
  constructor
  · rintro ⟨n, hn, hmodule, rfl⟩
    have hget := getElem?_of_mem_numbered ((hmem n).1 hn)
    exact ⟨(List.getElem?_eq_some_iff.1 hget).1, n.node, hget, by simpa using hmodule⟩
  · rintro ⟨-, src, hget, hmodule⟩
    have hnumber : (numbered e.sources)[i]? = some ⟨i, src⟩ := by
      rw [getElem?_numbered, hget, Option.map_some]
    exact ⟨⟨i, src⟩, (hmem _).2 (List.mem_of_getElem? hnumber), by simpa using hmodule, rfl⟩

variable {e : EventPlan}

theorem sorted_of_resting (h : ns.map (Numbered.map Source.resting) =
    e.slot.sources.map (Numbered.map Source.resting)) :
    ns.Pairwise (Numbered.Before Source.moduleIndex) := by
  have hsorted : (e.slot.sources.map (Numbered.map Source.resting)).Pairwise
      (Numbered.Before Source.moduleIndex) :=
    List.pairwise_map.2 (pairwise_sortBy Source.moduleIndex e.sources)
  rw [← h, List.pairwise_map] at hsorted
  exact hsorted

theorem indices_of_resting (h : ns.map (Numbered.map Source.resting) =
    e.slot.sources.map (Numbered.map Source.resting)) :
    ns.Pairwise fun m n => m.index ≠ n.index := by
  have hindex : ns.map Numbered.index = e.slot.sources.map Numbered.index := by
    have hmap := congrArg (List.map Numbered.index) h
    rwa [List.map_map, List.map_map] at hmap
  have hperm := (sortBy_perm Source.moduleIndex e.sources).map Numbered.index
  rw [map_index_numbered] at hperm
  have hnodup : (ns.map Numbered.index).Nodup := hindex ▸ hperm.nodup_iff.2 List.nodup_range
  exact List.pairwise_map.1 hnodup

/-- The walk over the sources of an event feeds those of the module as they were added. -/
theorem feedSources_attached (h : ns.map (Numbered.map Source.resting) =
    e.slot.sources.map (Numbered.map Source.resting)) (moduleIndex : Nat) (words : List UInt32)
    (st : Store) : feedSources moduleIndex words ns st =
      (e.attached moduleIndex).foldl (feedNumber words) (ns, st) := by
  have hnumbers : numbersOf moduleIndex ns = e.attached moduleIndex := by
    rw [← numbersOf_resting, h, numbersOf_resting, numbersOf_slot]
  rw [feedSources_eq_foldl (sorted_of_resting h) (indices_of_resting h), hnumbers]

end Numbers

end Slot

/-- The places of these spans. -/
def Span.Any (ps : List Span) (i : Nat) : Prop := ∃ p ∈ ps, i ∈ p

/-- What words for a module make of a source. One of the module takes them once, and what it owns
is as it was until then and afterwards as the source left it. All others stay as they were. -/
def Source.Fed (moduleIndex : Nat) (words : List UInt32) (st st' : Store) (src src' : Source) :
    Prop :=
  if src.moduleIndex = moduleIndex then
    ∃ u : Store, st.AgreeOn (Span.Any src.owned) u ∧ src' = (src.feed u words).1 ∧
      (src.feed u words).2.1.AgreeOn (Span.Any src.owned) st'
  else src' = src ∧ st.AgreeOn (Span.Any src.owned) st'

namespace Slot

section Apart

variable {moduleIndex : Nat} {words : List UInt32} {ns : List (Numbered Source)}

theorem spares_of_apart {src : Source} {ps : List Span}
    (h : ∀ p ∈ src.owned, ∀ q ∈ ps, p.Apart q) : src.Spares (Span.Any ps) :=
  fun p hp i hi ⟨q, hq, hiq⟩ => h p (src.written_subset hp) q hq i hi hiq

/-- What the sources that are still to come own is as it was at the start. -/
theorem feedSources_fed {start st : Store}
    (hsorted : ns.Pairwise (Numbered.Before Source.moduleIndex))
    (hapart : ns.Pairwise fun m n => ∀ p ∈ m.node.owned, ∀ q ∈ n.node.owned, p.Apart q)
    (hstart : ∀ n ∈ ns, start.AgreeOn (Span.Any n.node.owned) st) :
    List.Forall₂ (fun n n' => n'.index = n.index ∧
      n.node.Fed moduleIndex words start (feedSources moduleIndex words ns st).2 n'.node)
      ns (feedSources moduleIndex words ns st).1 := by
  induction ns generalizing st with
  | nil => exact .nil
  | cons n ns ih =>
    obtain ⟨hbefore, hsorted⟩ := List.pairwise_cons.1 hsorted
    obtain ⟨hn, hapart⟩ := List.pairwise_cons.1 hapart
    obtain ⟨hfirst, hrest⟩ := List.forall_mem_cons.1 hstart
    have hothers : ∀ u : Store, u.AgreeOn (Span.Any n.node.owned)
        (feedSources moduleIndex words ns u).2 := feedSources_frame moduleIndex words
      fun m hm => spares_of_apart fun p hp q hq => (hn m hm q hq p hp).symm
    rw [feedSources]
    split
    · next heq =>
      refine .cons ⟨rfl, ?_⟩ (ih hsorted hapart fun m hm => (hrest m hm).trans
        (Source.feed_frame (spares_of_apart (hn m hm)) st words))
      rw [Source.Fed, if_pos heq]
      exact ⟨st, hfirst, rfl, hothers _⟩
    · next hneq =>
      split
      · next hlt =>
        refine List.forall₂_same.2 fun m hm => ⟨rfl, ?_⟩
        have hmodule : m.node.moduleIndex ≠ moduleIndex := by
          rcases List.mem_cons.1 hm with rfl | hm
          · exact hneq
          · rcases hbefore m hm with hb | ⟨hb, -⟩ <;> omega
        rw [Source.Fed, if_neg hmodule]
        exact ⟨rfl, hstart m hm⟩
      · refine .cons ⟨rfl, ?_⟩ (ih hsorted hapart hrest)
        rw [Source.Fed, if_neg hneq]
        exact ⟨rfl, hfirst.trans (hothers st)⟩

end Apart

end Slot

namespace Graph

variable {g : Graph} {s : Slot} {event : Nat}

theorem Wired.sources_apart (h : g.Wired) (hs : s ∈ g.slots) : s.sources.Pairwise fun m n =>
    ∀ p ∈ m.node.owned, ∀ q ∈ n.node.owned, p.Apart q :=
  (List.pairwise_flatMap.1 (List.pairwise_append.1
    ((List.pairwise_flatMap.1 h.apart).1 s hs)).1).2

theorem Wired.spares_operator (h : g.Wired) (hs : s ∈ g.slots) {op : Operator} (ho : op ∈ s.nodes) :
    ∀ n ∈ s.sources, n.node.Spares (Span.Any op.owned) := fun n hn =>
  Slot.spares_of_apart fun p hp q hq => (List.pairwise_append.1
    ((List.pairwise_flatMap.1 h.apart).1 s hs)).2.2 p (List.mem_flatMap.2 ⟨n, hn, hp⟩) q
      (List.mem_flatMap.2 ⟨op, ho, hq⟩)

theorem Wired.spares_slot (h : g.Wired) (hs : g.slots[event]? = some s) {j : Nat} {t : Slot}
    (ht : g.slots[j]? = some t) (hj : j ≠ event) :
    ∀ n ∈ s.sources, n.node.Spares (Span.Any t.owned) := fun _ hn =>
  Slot.spares_of_apart fun p hp => h.apart_slots hs ht hj.symm p (Slot.source_owned_subset hn hp)

/-- The slot of a planned event, whatever ran. -/
theorem exists_slot_run {p : Plan} {e : EventPlan} (he : p.events[event]? = some e)
    (volume : Volume) (runs : List RunCall) :
    ∃ s, (runs.foldl RunCall.apply (p.build volume)).slots[event]? = some s ∧
      s.resting = e.slot.resting := by
  have hslot := getElem?_layout (layout_run (p.build volume) runs) event
  rw [getElem?_layout rfl, Plan.slots_build he] at hslot
  exact Option.map_eq_some_iff.1 hslot.symm

/-- Feeds the source of an event that has this number. -/
def feedNumber (event : Nat) (words : List UInt32) (g : Graph) (index : Nat) : Graph :=
  g.onSlot event fun g s =>
    let (sources, store) := Slot.feedNumber words (s.sources, g.arena.store) index
    (g.withStore store, { s with sources := sources })

/-- The graph after what its event became. -/
def withSources (g : Graph) (event : Nat) (s : Slot) (r : List (Numbered Source) × Store) : Graph :=
  { g.withStore r.2 with slots := g.slots.set event { s with sources := r.1 } }

theorem feed_of_some (hs : g.slots[event]? = some s) (moduleIndex : Nat) (words : List UInt32) :
    g.feed event moduleIndex words = g.withSources event s
      (Slot.feedSources moduleIndex words s.sources g.arena.store) := onSlot_of_some hs

theorem slots_withSources (hs : g.slots[event]? = some s) (r : List (Numbered Source) × Store) :
    (g.withSources event s r).slots[event]? = some { s with sources := r.1 } :=
  List.getElem?_set_self (List.getElem?_eq_some_iff.1 hs).1

/-- To feed sources one by one is to go through the event once. -/
theorem foldl_feedNumber (hs : g.slots[event]? = some s) (words : List UInt32) (is : List Nat) :
    is.foldl (feedNumber event words) g =
      g.withSources event s (is.foldl (Slot.feedNumber words) (s.sources, g.arena.store)) := by
  induction is generalizing g s with
  | nil =>
    obtain ⟨hlt, rfl⟩ := List.getElem?_eq_some_iff.1 hs
    rw [List.foldl_nil, List.foldl_nil, withSources, List.set_getElem_self]
    rfl
  | cons i is ih =>
    have hstep : feedNumber event words g i =
        g.withSources event s (Slot.feedNumber words (s.sources, g.arena.store) i) :=
      onSlot_of_some hs
    rw [List.foldl_cons, List.foldl_cons, hstep, ih (slots_withSources hs _)]
    simp only [withSources, withStore, List.set_set]

open Workbench in
/-- Words for a module come to each of its sources once, in the order in which these were added,
and nothing else changes: not the other sources of the event, not what they, its operators or the
other events own. It does not matter in which order the sources of the modules were added. -/
theorem feed_attached (capacity : Nat) (strategy : FillStrategy) (calls : List BuildCall)
    (volume : Volume) (runs : List RunCall) (event moduleIndex : Nat) (words : List UInt32)
    (e : EventPlan) (he : (after capacity strategy calls).plan.events[event]? = some e) :
    let g := runs.foldl RunCall.apply ((after capacity strategy calls).plan.build volume)
    let g' := g.feed event moduleIndex words
    g' = (e.attached moduleIndex).foldl (feedNumber event words) g ∧
    g' = { g.withStore g'.arena.store with slots := g'.slots } ∧
    (∃ s s', g.slots[event]? = some s ∧ g'.slots[event]? = some s' ∧
      (s.sources.map (Numbered.map Source.resting)).Perm
        ((numbered e.sources).map (Numbered.map Source.resting)) ∧
      List.Forall₂ (fun n n' => n'.index = n.index ∧
        n.node.Fed moduleIndex words g.arena.store g'.arena.store n'.node) s.sources s'.sources ∧
      s'.operators = s.operators ∧ s'.bits = s.bits ∧
      ∀ op ∈ s.nodes, g.arena.store.AgreeOn (Span.Any op.owned) g'.arena.store) ∧
    ∀ j ≠ event, g'.slots[j]? = g.slots[j]? ∧
      ∀ t ∈ g.slots[j]?, g.arena.store.AgreeOn (Span.Any t.owned) g'.arena.store := by
  intro g g'
  have hwired : g.Wired := ((sound_after capacity strategy calls).wired volume).of_layout
    (layout_run _ runs)
  obtain ⟨s, hs, hrest⟩ : ∃ s, g.slots[event]? = some s ∧ s.resting = e.slot.resting :=
    exists_slot_run he volume runs
  have hmem := List.mem_of_getElem? hs
  have hsources : s.sources.map (Numbered.map Source.resting) =
      e.slot.sources.map (Numbered.map Source.resting) := congrArg Slot.sources hrest
  have hfeed : g' = g.withSources event s
      (Slot.feedSources moduleIndex words s.sources g.arena.store) :=
    feed_of_some hs moduleIndex words
  have hfold : g' = (e.attached moduleIndex).foldl (feedNumber event words) g := by
    rw [hfeed, foldl_feedNumber hs, Slot.feedSources_attached hsources]
  have hframe : ∀ {ps : List Span}, (∀ n ∈ s.sources, n.node.Spares (Span.Any ps)) →
      g.arena.store.AgreeOn (Span.Any ps) g'.arena.store := fun h => by
    rw [hfeed]
    exact Slot.feedSources_frame moduleIndex words h g.arena.store
  have hslot : g'.slots[event]? = some { s with
      sources := (Slot.feedSources moduleIndex words s.sources g.arena.store).1 } := by
    rw [hfeed]
    exact slots_withSources hs _
  refine ⟨hfold, ?_, ⟨s, _, hs, hslot, ?_, ?_, rfl, rfl, fun op ho =>
    hframe (hwired.spares_operator hmem ho)⟩, fun j hj => ⟨?_, fun t ht =>
    hframe (hwired.spares_slot hs ht hj)⟩⟩
  · rw [hfeed]
    rfl
  · exact hsources ▸ (sortBy_perm _ _).map _
  · rw [hfeed]
    exact Slot.feedSources_fed (Slot.sorted_of_resting hsources) (hwired.sources_apart hmem)
      fun n _ => .refl _ _
  · rw [hfeed]
    exact List.getElem?_set_ne hj.symm

/-- Sources of two modules by turns, the first one of the larger module. -/
def mixedSources : List BuildCall :=
  [5, 3, 5, 3].flatMap fun moduleIndex =>
    [.makeSource (.word (Pattern.ofSymbols [.data] (Nat.le_of_ble_eq_true rfl) (-1)) .perHit 1
      ⟨0, moduleIndex, true⟩), .addSource 0 0]

open Workbench in
theorem feed_attached_mixedSources :
    let g := [RunCall.beginRun, .during (.beginEvent 0)].foldl RunCall.apply
      ((after 4096 .direct mixedSources).plan.build .fresh)
    ∃ e, (after 4096 .direct mixedSources).plan.events[0]? = some e ∧
      e.sources.map Source.moduleIndex = [5, 3, 5, 3] ∧
      g.feed 0 3 [1] = [1, 3].foldl (feedNumber 0 [1]) g := by
  intro g
  obtain ⟨e, he⟩ : ∃ e, (after 4096 .direct mixedSources).plan.events[0]? = some e :=
    ⟨_, List.getElem?_eq_getElem (by decide +kernel)⟩
  have hmodules : ((after 4096 .direct mixedSources).plan.events[0]?.map fun e =>
      (e.sources.map Source.moduleIndex, e.attached 3)) = some ([5, 3, 5, 3], [1, 3]) := by
    decide +kernel
  rw [he, Option.map_some, Option.some.injEq, Prod.mk.injEq] at hmodules
  obtain ⟨hmodules, hattached⟩ := hmodules
  have hfeed := (feed_attached 4096 .direct mixedSources .fresh
    [.beginRun, .during (.beginEvent 0)] 0 3 [1] e he).1
  exact ⟨e, he, hmodules, hattached ▸ hfeed⟩

end Graph

end Readout
