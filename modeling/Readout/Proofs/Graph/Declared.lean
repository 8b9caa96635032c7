import Readout.Proofs.Graph.Propagation
import Readout.Proofs.Operator.Elementwise

/-!
# Declared limits

The makers of element-wise operators write the limits and factors that `Declares` describes. A sink
that is made without axes spans the limits of its elements, and counts nothing beside them as long
as all that is valid lies in them.
-/
namespace Readout.Operator

variable {a b : Arena} {op : Operator} {s : Store} {i : Nat}

/-- The limits of the output as lists. -/
def limitWrites (out : Pipe) (lower upper : List Value) : List (Span × List Value) :=
  [(out.lower, lower), (out.upper, upper)]

theorem pushLike_ok {p out : Pipe} (h : pushLike p a = (.ok out, b)) : ∃ s : Store,
    b.store = s.overwrite (limitWrites out (s.values p.lower)
      ((s.assign out.lower (s.values p.lower)).values p.upper)) := by
  obtain ⟨_, c, -, h⟩ := exists_of_bind_apply_eq h
  cases h
  exact ⟨c.store, rfl⟩

/-- The limits that the maker of a difference computes. -/
def differences (s : Store) (x y : Pipe) : List (Value × Value) :=
  List.zipWith differenceLimits ((s.values x.lower).zip (s.values x.upper))
    ((s.values y.lower).zip (s.values y.upper))

/-- What the maker of a map takes from the given spans of its inputs. -/
def mappedValues (s : Store) (ps : List Pipe) (mappings : List Mapping) (f : Pipe → Span) :
    List Value :=
  mappings.map fun k => (mapped? (ps.map fun p => s.values (f p)) k).getD Value.zero

theorem difference_ok {x y : Pipe} (h : difference x y a = (.ok op, b)) :
    ∃ (out : Pipe) (s : Store), op = make .difference [x, y] [out] ∧
      b.store = s.overwrite (limitWrites out ((differences s x y).map Prod.fst)
        ((differences s x y).map Prod.snd)) := by
  obtain ⟨_, c, -, h⟩ := exists_of_bind_apply_eq h
  obtain ⟨out, d, -, h⟩ := exists_of_bind_apply_eq h
  cases h
  exact ⟨out, d.store, rfl, rfl⟩

theorem mapM_values (f : Pipe → Span) (ps : List Pipe) (a : Arena) :
    (ps.mapM fun p => Arena.values (f p) : Alloc (List (List Value))) a =
      (.ok (ps.map fun p => a.store.values (f p)), a) := by
  induction ps with
  | nil => rfl
  | cons p ps ih =>
    rw [List.mapM_cons, bind_apply]
    change ((ps.mapM fun p => Arena.values (f p) : Alloc (List (List Value))) >>= _) a = _
    rw [bind_apply, ih]
    rfl

theorem arrayMap_ok {ps : List Pipe} {mappings : List Mapping}
    (h : arrayMap ps mappings a = (.ok op, b)) :
    ∃ (out : Pipe) (s : Store), op = make (.arrayMap mappings) ps [out] ∧
      b.store = s.overwrite (limitWrites out (mappedValues s ps mappings Pipe.lower)
        (mappedValues s ps mappings Pipe.upper)) := by
  obtain ⟨out, c, -, h⟩ := exists_of_bind_apply_eq h
  obtain ⟨lower, d, hlower, h⟩ := exists_of_bind_apply_eq h
  rw [mapM_values] at hlower
  cases hlower
  obtain ⟨upper, d, hupper, h⟩ := exists_of_bind_apply_eq h
  rw [mapM_values] at hupper
  cases hupper
  cases h
  exact ⟨out, c.store, rfl, rfl⟩

section Declares

theorem getElem?_values (s : Store) {p : Span} (h : i < p.length) :
    (s.values p)[i]? = some (s.get p i) := by
  simp [Store.values, h]

variable {out : Pipe} {lower upper : List Value} (h : InRange b.store.slots op)
  (hout : op.outputs = [out]) (hb : b.store = s.overwrite (limitWrites out lower upper))
  (hi : i < out.length)

include h hout hb

omit hb h in
theorem limits_sublist (lower upper : List Value) :
    ((limitWrites out lower upper).map Prod.fst).Sublist op.owned := by
  have hspans : ((limitWrites out lower upper).map Prod.fst).Sublist out.spans :=
    List.sublist_cons_self out.data _
  rw [owned, hout, List.flatMap_singleton, List.append_assoc]
  exact hspans.trans (List.sublist_append_left _ _)

include hi in
theorem get_limits_made {l u : Value} (hl : lower[i]? = some l) (hu : upper[i]? = some u) :
    Memory.limits b.store.read out i = (l, u) := by
  have heven : out.Even := h.even out (by simp [hout])
  have hslots : s.slots = b.store.slots := by rw [hb, Store.slots_overwrite]
  have hsub := limits_sublist hout lower upper
  rw [hb]
  have hupper : (out.upper, upper) ∈ limitWrites out lower upper :=
    List.mem_cons_of_mem _ List.mem_cons_self
  exact Prod.ext (get_overwrite_owned h hslots hsub List.mem_cons_self hl (heven.1 ▸ hi))
    (get_overwrite_owned h hslots hsub hupper hu (heven.2 ▸ hi))

theorem get_input_made {p : Pipe} {q : Span} (hp : p ∈ op.inputs) (hq : q ∈ p.spans)
    (hlt : i < q.length) : b.store.get q i = s.get q i := by
  rw [hb]
  exact get_overwrite_input h (limits_sublist hout lower upper) hp hq hlt

end Declares

/-- A maker that copies limits declares those of the input. -/
theorem copied_made {p out : Pipe} (h : InRange b.store.slots op) (hout : op.outputs = [out])
    (hb : b.store = s.overwrite (limitWrites out (s.values p.lower)
      ((s.assign out.lower (s.values p.lower)).values p.upper)))
    (hp : p ∈ op.inputs) (hi : i < p.length) (hlen : out.length = p.length) :
    Memory.limits b.store.read out i = Memory.limits b.store.read p i := by
  have heven : p.Even := h.even p (List.mem_append_left _ hp)
  have hlower : i < p.lower.length := heven.1 ▸ hi
  have hupper : i < p.upper.length := heven.2 ▸ hi
  have happ : p.upper.Apart out.lower := h.input_apart hp p.upper_mem_spans (by
    simp [owned, hout, Pipe.spans])
  have hget : ((s.assign out.lower (s.values p.lower)).values p.upper)[i]? =
      some (s.get p.upper i) := by
    rw [getElem?_values _ hupper, Store.get_assign_of_apart _ _ happ hupper]
  have hl := get_input_made h hout hb hp p.lower_mem_spans hlower
  have hu := get_input_made h hout hb hp p.upper_mem_spans hupper
  exact (get_limits_made h hout hb (hlen ▸ hi) (getElem?_values s hlower) hget).trans
    (Prod.ext hl.symm hu.symm)

theorem getElem?_zip_values (s : Store) {p q : Span} (hp : i < p.length) (hq : i < q.length) :
    ((s.values p).zip (s.values q))[i]? = some (s.get p i, s.get q i) :=
  List.getElem?_zip_eq_some.2 ⟨getElem?_values s hp, getElem?_values s hq⟩

theorem difference_made {x y out : Pipe} (h : InRange b.store.slots (make .difference [x, y] [out]))
    (hb : b.store = s.overwrite (limitWrites out ((differences s x y).map Prod.fst)
      ((differences s x y).map Prod.snd)))
    (hi : i < out.length) : Memory.limits b.store.read out i =
      differenceLimits (Memory.limits b.store.read x i) (Memory.limits b.store.read y i) := by
  obtain ⟨_, _, _, hin, hout, hxy, hlen⟩ := h.shaped
  cases hin
  cases hout
  have hx : x.Even := h.even x (by simp [make])
  have hy : y.Even := h.even y (by simp [make])
  have hspans : i < x.lower.length ∧ i < x.upper.length ∧ i < y.lower.length ∧
      i < y.upper.length := by
    rw [hx.1, hx.2, hy.1, hy.2, ← hxy, ← hlen]
    exact ⟨hi, hi, hi, hi⟩
  obtain ⟨hxl, hxu, hyl, hyu⟩ := hspans
  have hlimits : (differences s x y)[i]? = some (differenceLimits
      (s.get x.lower i, s.get x.upper i) (s.get y.lower i, s.get y.upper i)) := by
    rw [differences, List.getElem?_zipWith, getElem?_zip_values s hxl hxu, getElem?_zip_values s hyl hyu]
  have hmade := get_limits_made h rfl hb hi (by rw [List.getElem?_map, hlimits]; rfl)
    (by rw [List.getElem?_map, hlimits]; rfl)
  have hlx := get_input_made h rfl hb (by simp [make]) x.lower_mem_spans hxl
  have hux := get_input_made h rfl hb (by simp [make]) x.upper_mem_spans hxu
  have hly := get_input_made h rfl hb (by simp [make]) y.lower_mem_spans hyl
  have huy := get_input_made h rfl hb (by simp [make]) y.upper_mem_spans hyu
  rw [hmade, ← hlx, ← hux, ← hly, ← huy]
  rfl

theorem arrayMap_made {ps : List Pipe} {mappings : List Mapping} {out : Pipe}
    (h : InRange b.store.slots (make (.arrayMap mappings) ps [out]))
    (hb : b.store = s.overwrite (limitWrites out (mappedValues s ps mappings Pipe.lower)
      (mappedValues s ps mappings Pipe.upper)))
    (hi : i < out.length) : Memory.limits b.store.read out i = ((mappings[i]?).bind fun k =>
      k.taken? ps (Memory.limits b.store.read)).getD (Value.zero, Value.zero) := by
  obtain ⟨_, hout, hlen⟩ := h.shaped
  cases hout
  have heven : ∀ p ∈ ps, p.Even := fun p hp => h.even p (List.mem_append_left _ hp)
  have hm : mappings[i]? = some mappings[i] := List.getElem?_eq_getElem (hlen ▸ hi)
  have hvalues : ∀ f : Pipe → Span, (mappedValues s ps mappings f)[i]? =
      some ((mapped? (ps.map fun p => s.values (f p)) mappings[i]).getD Value.zero) := fun f => by
    rw [mappedValues, List.getElem?_map, hm, Option.map_some]
  have hmade := get_limits_made h rfl hb hi (hvalues Pipe.lower) (hvalues Pipe.upper)
  have hlower := mapped?_values (s := s) (fun p hp => (heven p hp).1) mappings[i]
  have hupper := mapped?_values (s := s) (fun p hp => (heven p hp).2) mappings[i]
  rw [hmade, hm, Option.bind_some]
  rw [hlower, hupper, Mapping.taken?, Mapping.taken?, Mapping.taken?]
  cases hp : ps[mappings[i].input]? with
  | none => rfl
  | some p =>
    have hmem : p ∈ ps := List.mem_of_getElem? hp
    rw [Option.bind_some, Option.bind_some, Option.bind_some]
    split
    · next hlt =>
      have hl := get_input_made h rfl hb hmem p.lower_mem_spans ((heven p hmem).1 ▸ hlt)
      have hu := get_input_made h rfl hb hmem p.upper_mem_spans ((heven p hmem).2 ▸ hlt)
      exact Prod.ext hl.symm hu.symm
    · rfl

section Sinks

/-- The entries beside the axes of a sink. -/
def beside (op : Operator) : List (Value × Value) :=
  match op.kind with
  | .histograms hs => hs.map Histogram.beside
  | _ => []

theorem histograms_ok {p : Pipe} {bins : Nat} (h : histograms p bins none a = (.ok op, b)) :
    ∃ hs, op = make (.histograms hs) [p] [] ∧
      List.Forall₂ (fun l k => Histogram.axis k = Axis.ofLimits (Prod.fst l) (Prod.snd l))
        ((a.store.values p.lower).zip (a.store.values p.upper)) hs := by
  obtain ⟨lower, c, hlower, h⟩ := exists_of_bind_apply_eq h
  cases hlower
  obtain ⟨upper, d, hupper, h⟩ := exists_of_bind_apply_eq h
  cases hupper
  obtain ⟨hs, e, hmap, h⟩ := exists_of_bind_apply_eq h
  cases h
  have htakes := Takes.mapM (fun l : Value × Value => Histogram.takes_push bins
    (Option.getD none (Axis.ofLimits l.1 l.2)))
    ((a.store.values p.lower).zip (a.store.values p.upper))
  exact ⟨hs, rfl, (htakes.result a hs (by rw [hmap])).imp fun _ _ hk => hk.2⟩

/-- A default-binned sink counts nothing beside its axes if all that is valid lies on them. -/
theorem beside_step {p : Pipe} {bins : Nat} {made : Operator} {f : Frame}
    (hmake : histograms p bins none a = (.ok made, b)) {gate : Option Nat}
    (hop : op.resting = { made with gate := gate }.resting)
    (hspans : ∀ i < p.length, (f.store.get p.data i).isValid = true → Quantity.spans
      (a.store.get p.lower i) (a.store.get p.upper i) (f.store.get p.data i) = true) :
    (op.step f).1.beside = op.beside := by
  obtain ⟨ks, rfl, haxes⟩ := histograms_ok hmake
  obtain ⟨inputs, outputs, gate', kind⟩ := op
  cases kind with
  | histograms hs =>
    simp only [resting, make, Kind.resting, mk.injEq, Kind.histograms.injEq] at hop
    obtain ⟨rfl, rfl, rfl, hks⟩ := hop
    rw [step]
    split
    · refine Histogram.beside_fillEach f.filler f.store fun i k x hk hx hvalid => ?_
      obtain ⟨l, hl, -, haxis, -⟩ : ∃ l, ks[i]? = some l ∧ l.data = k.data ∧ l.axis = k.axis ∧
          l.factor = k.factor := by
        simpa [hk] using congrArg (fun l => l[i]?) hks
      obtain ⟨hlt, hvalue⟩ : i < p.length ∧ f.store.get p.data i = x := by
        have hx : (f.store.values p.data)[i]? = some x := hx
        simpa [Store.values, Pipe.length, List.getElem?_eq_some_iff] using hx
      obtain ⟨hi, rfl⟩ := List.getElem?_eq_some_iff.1 hl
      have haxes := haxes.get (by rw [haxes.length_eq]; exact hi) hi
      simp only [List.get_eq_getElem, List.getElem_zip, Store.values, List.getElem_map,
        List.getElem_range] at haxes
      exact ⟨_, _, haxis.symm.trans haxes, hvalue ▸ hspans i hlt (hvalue ▸ hvalid)⟩
    · rfl
  | _ => cases congrArg kind hop

end Sinks

end Readout.Operator

namespace Readout

/-- The recipes of element-wise operators. -/
def Recipe.isElementwise : Recipe → Bool
  | calibration .. | keepPrevious .. | difference .. | arrayMap .. | rangeFilter .. |
    conditionFilter .. => true
  | _ => false

open Operator in
theorem Recipe.declares_make {r : Recipe} {op : Operator} {a b : Arena}
    (hr : r.isElementwise = true) (hmake : r.make a = (.ok op, b)) :
    op.kind.isElementwise = true ∧ (InRange b.store.slots op → op.Declares b.store.read) := by
  cases r with
  | calibration input units =>
    obtain ⟨out, factors, s, rfl, hlen, hb⟩ := calibrationEach_ok hmake
    refine ⟨rfl, fun h i hi => ?_⟩
    obtain ⟨_, _, hin, hout, -, hsize⟩ := h.shaped
    cases hin
    cases hout
    have hi : i < out.length := hi
    obtain ⟨u, hu⟩ : ∃ u, units[i]? = some u := ⟨_, List.getElem?_eq_getElem (by omega)⟩
    obtain ⟨hlower, hupper, hfactor⟩ := get_calibration_made h hb hi hu
    rw [← hlower, ← hupper] at hfactor
    exact hfactor
  | difference x y =>
    obtain ⟨out, s, rfl, hb⟩ := difference_ok hmake
    exact ⟨rfl, fun h i hi => difference_made h hb hi⟩
  | arrayMap inputs mappings =>
    obtain ⟨out, s, rfl, hb⟩ := arrayMap_ok hmake
    exact ⟨rfl, fun h i hi => arrayMap_made h hb hi⟩
  | keepPrevious input keepValid =>
    obtain ⟨previous, c, -, hmake⟩ := exists_of_bind_apply_eq hmake
    obtain ⟨out, d, hout, hmake⟩ := exists_of_bind_apply_eq hmake
    cases hmake
    obtain ⟨s, hb⟩ := pushLike_ok hout
    refine ⟨rfl, fun h i hi => ?_⟩
    obtain ⟨_, _, hin, hout, -, hlen⟩ := h.shaped
    cases hin
    cases hout
    exact copied_made h rfl hb (List.mem_singleton_self input) (hlen ▸ hi) hlen
  | rangeFilter input w inverted =>
    obtain ⟨out, d, hout, hmake⟩ := exists_of_bind_apply_eq hmake
    cases hmake
    obtain ⟨s, hb⟩ := pushLike_ok hout
    refine ⟨rfl, fun h i hi => ?_⟩
    obtain ⟨_, _, hin, hout, hlen⟩ := h.shaped
    cases hin
    cases hout
    exact copied_made h rfl hb (List.mem_singleton_self input) (hlen ▸ hi) hlen
  | conditionFilter data condition inverted =>
    rw [make, Operator.conditionFilter] at hmake
    split at hmake
    · cases hmake
    · obtain ⟨out, d, hout, hmake⟩ := exists_of_bind_apply_eq hmake
      cases hmake
      obtain ⟨s, hb⟩ := pushLike_ok hout
      refine ⟨rfl, fun h i hi => ?_⟩
      obtain ⟨_, _, _, hin, hout, -, hlen⟩ := h.shaped
      cases hin
      cases hout
      exact copied_made h rfl hb List.mem_cons_self (hlen ▸ hi) hlen
  | _ => cases hr

end Readout
