import Readout.Proofs.Arena.Tied
import Readout.Proofs.Operator.Recipe

/-!
# Declared outputs

What a first script returns declares outputs exactly if it is an array of groups of five items, each
of which describes an output. These groups are described here without the checks that look for
them. An expression whose outputs are not declared takes nothing from the arena.
-/
namespace Readout

namespace Script.Datum

/-- Integers and doubles are numbers; an integer stands for the double nearest to it. -/
inductive IsNumber : Datum → Value → Prop
  | int (n : Int) : IsNumber (.int n) (Value.ofInt n)
  | float (v : Value) : IsNumber (.float v) v

variable {d : Datum} {v : Value} {items : Array Datum}

theorem number?_eq_some_iff : d.number? = some v ↔ d.IsNumber v := by
  constructor
  · intro h
    cases d with
    | int n => exact Option.some.inj h ▸ .int n
    | float w => exact Option.some.inj h ▸ .float w
    | _ => cases h
  · rintro ⟨⟩ <;> rfl

theorem number?_eq_none_iff : d.number? = none ↔ ∀ v, ¬ d.IsNumber v := by
  simp only [← number?_eq_some_iff, Option.eq_none_iff_forall_ne_some, ne_eq]

theorem array?_eq_some_iff : d.array? = some items ↔ d = .array items := by
  constructor
  · intro h
    cases d with
    | array _ => exact congrArg Datum.array (Option.some.inj h)
    | _ => cases h
  · rintro rfl
    rfl

theorem array?_eq_none_iff : d.array? = none ↔ ∀ items, d ≠ .array items := by
  simp only [← array?_eq_some_iff, Option.eq_none_iff_forall_ne_some, ne_eq]

theorem isArray_eq : d.isArray = d.array?.isSome := by
  cases d <;> rfl

end Script.Datum

open Script (Datum Scope)

namespace Declaration

/-- The limits of so many elements: a number for all of them, or an array with one for each. -/
inductive Limit (size : Nat) : Datum → List Value → Prop
  | number {d : Datum} {v : Value} (h : d.IsNumber v) : Limit size d (List.replicate size v)
  | array {items : Array Datum} {vs : List Value} (hsize : items.size = size)
    (h : List.Forall₂ Datum.IsNumber items.toList vs) : Limit size (.array items) vs

/-- Five items that declare an output. -/
inductive Group : List Datum → Declaration → Prop
  | mk {name label : String} {size : Nat} {low high : Datum} {lower upper : List Value}
    (hname : name ≠ "") (hsize : 0 < size)
    (hsame : (∃ items, low = .array items) ↔ ∃ items, high = .array items)
    (hlower : Limit size low lower) (hupper : Limit size high upper) :
    Group [.text name, .text label, .int size, low, high] ⟨name, label, lower, upper⟩

/-- A result that declares outputs has five items for each of them, and no name twice. -/
def Listed (result : Datum) (ds : List Declaration) : Prop :=
  ∃ groups : List (List Datum), groups ≠ [] ∧ result = .array groups.flatten.toArray ∧
    List.Forall₂ Group groups ds ∧ (ds.map name).Nodup

variable {d low high : Datum} {size : Nat} {what output : String} {vs : List Value}
  {seen : List String} {ds : List Declaration}

theorem Limit.length_eq (h : Limit size d vs) : vs.length = size := by
  cases h with
  | number => exact List.length_replicate
  | array hsize h => rw [← hsize, ← h.length_eq, Array.length_toList]

theorem mapM_number?_iff {items : List Datum} :
    items.mapM Datum.number? = some vs ↔ List.Forall₂ Datum.IsNumber items vs := by
  induction items generalizing vs with
  | nil => simp [eq_comm]
  | cons d items ih =>
    simp only [List.mapM_cons, Option.bind_eq_bind, Option.bind_eq_some_iff, Option.pure_def,
      Option.some.injEq, Datum.number?_eq_some_iff, ih, List.forall₂_cons_left_iff]
    constructor
    · rintro ⟨v, hv, ws, hws, rfl⟩
      exact ⟨v, ws, hv, hws, rfl⟩
    · rintro ⟨v, ws, hv, hws, rfl⟩
      exact ⟨v, hv, ws, hws, rfl⟩

theorem limits_eq_ok_iff : limits d size what output = .ok vs ↔ Limit size d vs := by
  rw [limits]
  cases hn : d.number? with
  | some v =>
    have hv := Datum.number?_eq_some_iff.1 hn
    constructor
    · intro h
      cases h
      exact .number hv
    · intro h
      cases h with
      | number hw => rw [← Option.some.inj (hn.symm.trans (Datum.number?_eq_some_iff.2 hw))]; rfl
      | array => cases hv
  | none =>
    cases ha : d.array? with
    | none =>
      constructor
      · intro h
        cases h
      · intro h
        cases h with
        | number hw => exact absurd hw (Datum.number?_eq_none_iff.1 hn _)
        | array => cases ha
    | some items =>
      obtain rfl := Datum.array?_eq_some_iff.1 ha
      dsimp only
      constructor
      · intro h
        split at h
        · cases h
        · next hsize =>
          split at h
          · next ws hws =>
            cases h
            exact .array (Decidable.not_not.1 hsize) (mapM_number?_iff.1 hws)
          · cases h
      · intro h
        cases h with
        | number hw => cases hw
        | array hsize h => rw [if_neg (Decidable.not_not.2 hsize), mapM_number?_iff.2 h]; rfl

theorem positive?_eq_some_iff : positive? d = some size ↔ d = .int size ∧ 0 < size := by
  cases d with
  | int n =>
    simp only [positive?, Datum.int.injEq]
    split
    · simp only [Option.some.injEq]
      omega
    · simp only [reduceCtorEq, false_iff]
      omega
  | _ => simp [positive?]

theorem isArray_eq_iff : low.isArray = high.isArray ↔
    ((∃ items, low = .array items) ↔ ∃ items, high = .array items) := by
  have harray : ∀ d : Datum, d.isArray = true ↔ ∃ items, d = .array items := fun d => by
    simp only [← Datum.array?_eq_some_iff, Datum.isArray_eq, Option.isSome_iff_exists]
  rw [← harray, ← harray, Bool.eq_iff_iff]

theorem check_eq_ok_iff {ε α : Type} {c : Prop} [Decidable c] {e : ε} {k : PUnit → Except ε α}
    {v : α} : (if c then throw e >>= k else k ⟨⟩) = .ok v ↔ ¬ c ∧ k ⟨⟩ = .ok v := by
  by_cases hc : c
  · rw [if_pos hc]
    exact ⟨fun h => (nomatch h), fun h => absurd hc h.1⟩
  · rw [if_neg hc, and_iff_right hc]

theorem ofItems_eq_ok_iff {name label count : Datum} {made : Declaration} :
    ofItems seen name label count low high = .ok made ↔
      Group [name, label, count, low, high] made ∧ made.name ∉ seen := by
  constructor
  · intro h
    cases name with
    | text n =>
      simp only [ofItems, text?, check_eq_ok_iff] at h
      obtain ⟨hname, hseen, h⟩ := h
      cases label with
      | text unit =>
        cases hsize : positive? count with
        | none =>
          rw [hsize] at h
          cases h
        | some size =>
          simp only [hsize, check_eq_ok_iff, ne_eq, not_not] at h
          obtain ⟨hsame, h⟩ := h
          obtain ⟨lower, hlower, h⟩ := exists_of_bind_eq_ok h
          obtain ⟨upper, hupper, h⟩ := exists_of_bind_eq_ok h
          cases h
          obtain ⟨rfl, hpos⟩ := positive?_eq_some_iff.1 hsize
          exact ⟨.mk hname hpos (isArray_eq_iff.1 hsame) (limits_eq_ok_iff.1 hlower)
            (limits_eq_ok_iff.1 hupper), by simpa using hseen⟩
      | _ => cases h
    | _ => cases h
  · rintro ⟨⟨hname, hsize, hsame, hlower, hupper⟩, hseen⟩
    have hpos := positive?_eq_some_iff.2 ⟨rfl, hsize⟩
    simp only [ofItems, text?, hpos, check_eq_ok_iff, limits_eq_ok_iff.2 hlower,
      limits_eq_ok_iff.2 hupper, isArray_eq_iff.2 hsame]
    exact ⟨hname, by simpa using hseen, fun hne => hne rfl, rfl⟩

theorem Group.length_eq {items : List Datum} {made : Declaration} (h : Group items made) :
    items.length = 5 := by
  cases h
  rfl

theorem Group.sizes {items : List Datum} {made : Declaration} (h : Group items made) :
    items[2]? = some (.int made.size) ∧ made.lower.length = made.size ∧
      made.upper.length = made.size := by
  cases h with
  | mk hname hsize hsame hlower hupper =>
    have hlength := hlower.length_eq
    refine ⟨?_, rfl, ?_⟩
    · rw [Declaration.size, hlength]
      rfl
    · rw [Declaration.size, hlength, hupper.length_eq]

theorem ofList_eq_ok_iff {groups : List (List Datum)} (hfive : ∀ g ∈ groups, g.length = 5) :
    ofList seen groups.flatten = .ok ds ↔
      List.Forall₂ Group groups ds ∧ (ds.map name).Nodup ∧ ∀ d ∈ ds, d.name ∉ seen := by
  -- The names seen so far grow from group to group, so the statement has to hold for any of them.
  induction groups generalizing seen ds with
  | nil =>
    constructor
    · intro h
      cases h
      simp
    · rintro ⟨h, -⟩
      cases h
      rfl
  | cons g groups ih =>
    obtain ⟨hg, hothers⟩ := List.forall_mem_cons.1 hfive
    obtain ⟨name, label, count, low, high, rfl⟩ : ∃ a b c d e, g = [a, b, c, d, e] := by
      match g, hg with
      | [a, b, c, d, e], _ => exact ⟨a, b, c, d, e, rfl⟩
    constructor
    · intro h
      obtain ⟨made, hmade, h⟩ := exists_of_bind_eq_ok h
      obtain ⟨rest, hrest, h⟩ := exists_of_bind_eq_ok h
      cases h
      obtain ⟨hgroup, hseen⟩ := ofItems_eq_ok_iff.1 hmade
      obtain ⟨hgroups, hnodup, hunseen⟩ := (ih hothers).1 hrest
      refine ⟨.cons hgroup hgroups, List.nodup_cons.2 ⟨fun hmem => ?_, hnodup⟩,
        List.forall_mem_cons.2 ⟨hseen, fun d hd hmem => ?_⟩⟩
      · obtain ⟨d, hd, heq⟩ := List.mem_map.1 hmem
        exact hunseen d hd (heq ▸ List.mem_cons_self)
      · exact hunseen d hd (List.mem_cons_of_mem _ hmem)
    · rintro ⟨hgroups, hnodup, hseen⟩
      obtain ⟨made, rest, hgroup, hrest, rfl⟩ := List.forall₂_cons_left_iff.1 hgroups
      obtain ⟨hmem, hnodup⟩ := List.nodup_cons.1 hnodup
      obtain ⟨hfirst, hseen⟩ := List.forall_mem_cons.1 hseen
      have hlist : ofList (made.name :: seen) groups.flatten = .ok rest := by
        refine (ih hothers).2 ⟨hrest, hnodup, fun d hd hin => ?_⟩
        rcases List.mem_cons.1 hin with heq | hin
        · exact hmem (heq ▸ List.mem_map_of_mem hd)
        · exact hseen d hd hin
      have hmade := ofItems_eq_ok_iff.2 ⟨hgroup, hfirst⟩
      change ofList seen (name :: label :: count :: low :: high :: groups.flatten) = _
      rw [ofList, hmade]
      change (ofList (made.name :: seen) groups.flatten >>= fun rest => pure (made :: rest)) = _
      rw [hlist]
      rfl

theorem exists_groups {items : List Datum} {n : Nat} (h : items.length = 5 * n) :
    ∃ groups : List (List Datum), groups.length = n ∧ items = groups.flatten ∧
      ∀ g ∈ groups, g.length = 5 := by
  induction n generalizing items with
  | zero => exact ⟨[], rfl, List.length_eq_zero_iff.1 h, by simp⟩
  | succ n ih =>
    have hdrop : (items.drop 5).length = 5 * n := by
      rw [List.length_drop]
      omega
    obtain ⟨groups, hlen, hrest, hfive⟩ := ih hdrop
    refine ⟨items.take 5 :: groups, congrArg (· + 1) hlen, ?_, List.forall_mem_cons.2 ⟨?_, hfive⟩⟩
    · rw [List.flatten_cons, ← hrest, List.take_append_drop]
    · simp
      omega

theorem ofResult_eq_ok_iff {result : Datum} : ofResult result = .ok ds ↔ Listed result ds := by
  constructor
  · intro h
    rw [ofResult] at h
    cases ha : result.array? with
    | none =>
      rw [ha] at h
      cases h
    | some items =>
      simp only [ha] at h
      split at h
      · cases h
      · next hcount =>
        have hlength : items.toList.length = 5 * (items.size / 5) := by
          rw [Array.length_toList]
          omega
        obtain ⟨groups, hlen, hitems, hfive⟩ := exists_groups hlength
        rw [hitems] at h
        obtain ⟨hgroups, hnodup, -⟩ := (ofList_eq_ok_iff hfive).1 h
        refine ⟨groups, fun hnil => ?_, ?_, hgroups, hnodup⟩
        · rw [hnil, List.length_nil] at hlen
          omega
        · rw [Datum.array?_eq_some_iff.1 ha, ← hitems]
  · rintro ⟨groups, hne, rfl, hgroups, hnodup⟩
    have hfive : ∀ g ∈ groups, g.length = 5 := fun g hg => by
      obtain ⟨d, -, hd⟩ := exists_of_mem_right hgroups.flip hg
      exact hd.length_eq
    have hlengths : groups.map List.length = List.replicate groups.length 5 :=
      List.eq_replicate_iff.2 ⟨List.length_map _, by simpa using hfive⟩
    have hsize : groups.flatten.toArray.size = groups.length * 5 := by
      rw [List.size_toArray, List.length_flatten, hlengths, List.sum_replicate_nat]
    have hpos := List.length_pos_of_ne_nil hne
    rw [ofResult]
    simp only [Datum.array?]
    rw [if_neg (by omega)]
    exact (ofList_eq_ok_iff hfive).2 ⟨hgroups, hnodup, by simp⟩

example : ofResult (.array #[.text "y", .text "ns", .int 1, .float .zero, .array #[.float .two]]) =
    .error (.mixedLimits "y") := rfl

end Declaration

theorem Expression.declare_eq_ok_iff {names : List String} {result : Datum}
    {ds : List Declaration} : declare names result = .ok ds ↔
      Declaration.Listed result ds ∧ ∀ d ∈ ds, d.name ∉ names := by
  rw [declare, ← Declaration.ofResult_eq_ok_iff]
  cases Declaration.ofResult result with
  | error e => exact ⟨fun h => (nomatch h), fun h => (nomatch h.1)⟩
  | ok made =>
    have hnone : made.find? (fun d => names.contains d.name) = none ↔
        ∀ d ∈ made, d.name ∉ names := by simp
    change (pure made >>= _) = _ ↔ _
    rw [pure_bind]
    split
    · next d hd =>
      refine ⟨fun h => (nomatch h), fun ⟨heq, h⟩ => ?_⟩
      rw [← Except.ok.inj heq, ← hnone, hd] at h
      cases h
    · next hd =>
      exact ⟨fun h => ⟨h, Except.ok.inj h ▸ hnone.1 hd⟩, fun h => h.1⟩

namespace Operator

/-- What the first script finds in scope. -/
def beginScope (inputs : List NamedInput) (s : Store) : Scope :=
  Expression.bind (inputs.map NamedInput.name)
    (inputs.map fun i => Expression.describe i.unit (s.values i.pipe.lower) (s.values i.pipe.upper))

/-- The first script declares these outputs, none of them under the name of an input. -/
def Declaring (inputs : List NamedInput) (first : Scope → Except ExpressionError Datum) (s : Store)
    (ds : List Declaration) : Prop :=
  ∃ result, first (beginScope inputs s) = .ok result ∧ Declaration.Listed result ds ∧
    ∀ d ∈ ds, d.name ∉ inputs.map NamedInput.name

variable {inputs : List NamedInput} {first : Scope → Except ExpressionError Datum}
  {program : Scope → Option Scope} {a b : Arena} {op : Operator} {ds : List Declaration}

theorem declared_eq_ok_iff {names : List String} {maps : List Datum} :
    declared names maps first = .ok ds ↔ ∃ result, first (Expression.bind names maps) = .ok result ∧
      Declaration.Listed result ds ∧ ∀ d ∈ ds, d.name ∉ names := by
  simp only [← Expression.declare_eq_ok_iff]
  rw [declared]
  cases first (Expression.bind names maps) with
  | error e => exact ⟨fun h => (nomatch h), fun ⟨_, h, _⟩ => (nomatch h)⟩
  | ok result =>
    change (Expression.declare names result).mapError Error.expression = .ok ds ↔ _
    constructor
    · exact fun h => ⟨result, rfl, exists_of_mapError_eq_ok h⟩
    · rintro ⟨_, h, hds⟩
      cases h
      rw [hds]
      rfl

theorem mapM_describeInput (inputs : List NamedInput) (a : Arena) :
    inputs.mapM describeInput a = (.ok (inputs.map fun i => Expression.describe i.unit
      (a.store.values i.pipe.lower) (a.store.values i.pipe.upper)), a) := by
  induction inputs with
  | nil => rfl
  | cons i inputs ih =>
    rw [List.mapM_cons, bind_apply]
    change (inputs.mapM describeInput >>= _) a = _
    rw [bind_apply, ih]
    rfl

/-- Nothing is taken before the outputs are declared. -/
theorem expressionOf_apply : expressionOf inputs first program a =
    match declared (inputs.map NamedInput.name)
      (inputs.map fun i => Expression.describe i.unit (a.store.values i.pipe.lower)
        (a.store.values i.pipe.upper)) first with
    | .error e => (.error e, a)
    | .ok ds => (ds.mapM pushDeclared >>= fun outputs => pure (make
        (.expression ⟨inputs.map NamedInput.name, ds, program, false⟩)
        (inputs.map NamedInput.pipe) outputs)) a := by
  rw [expressionOf, bind_apply, mapM_describeInput]
  dsimp only
  rw [bind_apply]
  cases declared _ _ first <;> rfl

theorem expressionOf_ok (h : expressionOf inputs first program a = (.ok op, b)) :
    ∃ ds outputs, Declaring inputs first a.store ds ∧ ds.mapM pushDeclared a = (.ok outputs, b) ∧
      op = make (.expression ⟨inputs.map NamedInput.name, ds, program, false⟩)
        (inputs.map NamedInput.pipe) outputs := by
  rw [expressionOf_apply] at h
  split at h
  · cases h
  · next ds hds =>
    obtain ⟨outputs, _, houtputs, h⟩ := exists_of_bind_apply_eq h
    cases h
    exact ⟨ds, outputs, declared_eq_ok_iff.1 hds, houtputs, rfl⟩

end Operator

end Readout
