import Readout.Proofs.Config.Mirror

/-!
# Building in another order

An event whose operators were added in one order is built again from a list in another order. At
every time the new draft mirrors what has come of the old one; of the operators that wait, the one
that came first in the old order is ready, so no pass is in vain until none is left.
-/
namespace Readout

theorem Error.OutOfMemory.within {e : Error} (h : e.OutOfMemory) (c : Context) :
    (Error.within c e).OutOfMemory := h

namespace Draft

variable {T : Place → Ties} {d d' : Draft} {event : Nat} {o : OperatorConfig}
  {os ws vs : List OperatorConfig} {D : Nat → Draft}

/-- The new draft while its operators are added. A tie leads to what was there from the start, or
to what an operator has taken that is in the new draft by now. -/
structure Live (event : Nat) (os : List OperatorConfig) (D : Nat → Draft) (T : Place → Ties)
    (d : Draft) : Prop where
  mirrors : Mirrors T d (D os.length)
  steady : d.Steady
  base : ∀ name, ((D 0).find? event name).isSome = true → (d.find? event name).isSome = true
  own : ∀ κ i j, T κ i j → j < (D 0).level κ ∨ ∃ k o, os[k]? = some o ∧
    (d.find? event o.name).isSome = true ∧ (D k).level κ ≤ j ∧ j < (D (k + 1)).level κ

namespace Live

theorem avoids (h : Live event os D T d) (hD : History event os D) (h₀ : (D 0).Steady) {k : Nat}
    (ho : os[k]? = some o) (hfree : d.find? event o.name = none) (κ : Place) (i j : Nat)
    (hij : T κ i j) : ¬ ((D k).level κ ≤ j ∧ j < (D (k + 1)).level κ) := by
  intro hj
  rcases h.own κ i j hij with hbase | ⟨l, p, hp, hsome, hl⟩
  · have hle := (hD.grows h₀ (Nat.zero_le k)).level κ
    omega
  · rcases Nat.lt_trichotomy k l with hlt | rfl | hlt
    · have hle : (D (k + 1)).level κ ≤ (D l).level κ := (hD.grows h₀ hlt).level κ
      omega
    · obtain rfl := Option.some.inj (ho.symm.trans hp)
      rw [hfree] at hsome
      cases hsome
    · have hle : (D (l + 1)).level κ ≤ (D k).level κ := (hD.grows h₀ hlt).level κ
      omega

/-- There is a place left for an operator that waits. -/
theorem room (h : Live event os D T d) (hD : History event os D) (h₀ : (D 0).Steady) {k : Nat}
    (ho : os[k]? = some o) (hfree : d.find? event o.name = none) :
    d.level (.node event) ≤ Handle.maxIndex := by
  obtain ⟨r, op, g, hadds⟩ := (hD.steady h₀ k).adds (hD.adds k o ho)
  have hlt : k < os.length := (List.getElem?_eq_some_iff.1 ho).1
  have hnext := hadds.level_node
  have hnode : (D (k + 1)).level (.node event) ≤ (D os.length).level (.node event) :=
    (hD.grows h₀ hlt).level _
  have hcounted : (D os.length).level (.node event) ≤ Handle.maxIndex + 1 :=
    (hD.steady h₀ os.length).counted event
  have hN : Ties.Unique fun i j => i = d.level (.node event) ∧ j = (D k).level (.node event) := by
    rintro i j ⟨rfl, rfl⟩ i' j' ⟨rfl, rfl⟩
    exact iff_of_true rfl rfl
  have hunique := (h.mirrors.unique (.node event)).or hN (h.mirrors.left _)
    (h.avoids hD h₀ ho hfree _) fun i j ⟨hi, hj⟩ => Or.inr ⟨by omega, by omega, by omega⟩
  have hle : d.level (.node event) + 1 ≤ (D os.length).level (.node event) := by
    refine hunique.le (fun i hi => ?_) fun i j hij => ?_
    · by_cases hlast : i = d.level (.node event)
      · exact ⟨_, Or.inr ⟨hlast, rfl⟩⟩
      · have hlt : i < (d.eventAt event).operators.length :=
          Nat.lt_of_le_of_ne (Nat.le_of_lt_succ hi) hlast
        obtain ⟨j, -, hij, -⟩ := h.mirrors.nodes event i _ (List.getElem?_eq_getElem hlt)
        exact ⟨j, Or.inl hij⟩
    · rcases hij with hij | ⟨-, rfl⟩
      · exact h.mirrors.right _ i j hij
      · omega
  omega

/-- An operator that is ready is added, unless the arena is full. -/
theorem step (h : Live event os D T d) (hD : History event os D) (h₀ : (D 0).Steady)
    (hfits : ∀ o ∈ os, o.GateFits) (ho : o ∈ os) (hfree : d.find? event o.name = none)
    (hready : d.isReady event o = true) :
    (∃ d' r op g T', addOperator event o d = (.ok (), d') ∧ Adds event o r op g d d' ∧
      Live event os D T' d') ∨
      ∃ c d', addOperator event o d = (.error c, d') ∧ c.OutOfMemory := by
  obtain ⟨k, hk⟩ := List.getElem?_of_mem ho
  have hlt : k < os.length := (List.getElem?_eq_some_iff.1 hk).1
  have hsteady := hD.steady h₀ k
  obtain ⟨r', op', g', he⟩ := hsteady.adds (hD.adds k o hk)
  have hbefore := hD.grows h₀ (Nat.le_of_lt hlt)
  have hbehind := hD.grows h₀ (Nat.succ_le_of_lt hlt)
  have havoid := h.avoids hD h₀ hk hfree
  rcases h.mirrors.attempt h.steady hsteady hbefore he hfree hready (h.room hD h₀ hk hfree)
    (hfits o ho) with ⟨r, op, g, d', R, hok, hadds⟩ | hfull
  · have hgrows := hadds.left.grows h.steady
    refine Or.inl ⟨d', r, op, g, _, hok, hadds.left,
      h.mirrors.extend h.steady hadds hbehind havoid,
      hadds.left.steady h.steady hok, fun name hname => ?_, fun κ i j hij => ?_⟩
    · obtain ⟨n, hn⟩ := Option.isSome_iff_exists.1 (h.base name hname)
      exact Option.isSome_iff_exists.2 ⟨n, hgrows.find event name n hn⟩
    · have hold : T κ i j → j < (D 0).level κ ∨ ∃ l p, os[l]? = some p ∧
          (d'.find? event p.name).isSome = true ∧ (D l).level κ ≤ j ∧ j < (D (l + 1)).level κ := by
        intro hij
        refine (h.own κ i j hij).imp_right ?_
        rintro ⟨l, p, hp, hsome, hl⟩
        obtain ⟨n, hn⟩ := Option.isSome_iff_exists.1 hsome
        exact ⟨l, p, hp, Option.isSome_iff_exists.2 ⟨n, hgrows.find event p.name n hn⟩, hl⟩
      rcases hij with hij | hij
      · exact hold hij
      · rcases hadds.fresh_cases hij with hij | ⟨-, -, hj⟩
        · exact hold hij
        · exact Or.inr ⟨k, o, hk, by rw [hadds.left.find_here]; rfl, hj⟩
  · exact Or.inr hfull

end Live

/-- What a pass makes of the operators that wait. -/
structure Passed (event : Nat) (ws vs : List OperatorConfig) (d d' : Draft) : Prop where
  sub : vs.Sublist ws
  waits : ∀ o ∈ vs, d'.find? event o.name = none
  done : ∀ o ∈ ws, o ∈ vs ∨ (d'.find? event o.name).isSome = true
  only : ∀ name, (d'.find? event name).isSome = true →
    (d.find? event name).isSome = true ∨ ∃ o ∈ ws, o.name = name
  grows : d.Grows d'
  stuck : vs.length = ws.length → ∀ o ∈ ws, d.isReady event o = false

namespace Passed

theorem nil (event : Nat) (d : Draft) : Passed event [] [] d d :=
  ⟨.slnil, nofun, nofun, fun _ => Or.inl, .refl d, fun _ => nofun⟩

/-- An operator was added before the others were looked at. -/
theorem added {r : Recipe} {op : Operator} {g : Option Nat} {e : Draft}
    (h : Passed event ws vs d' e) (hd : d.Steady) (hadds : Adds event o r op g d d') :
    Passed event (o :: ws) vs d e := by
  have hgrows := (hadds.grows hd).trans h.grows
  refine ⟨h.sub.cons o, h.waits, List.forall_mem_cons.2 ⟨Or.inr ?_, h.done⟩, fun name hn => ?_,
    hgrows, fun hlen => ?_⟩
  · rw [h.grows.find event o.name _ hadds.find_here]
    rfl
  · rcases h.only name hn with hn | ⟨p, hp, hname⟩
    · rw [hadds.find] at hn
      split at hn
      · next hhere => exact Or.inr ⟨o, List.mem_cons_self, hhere.2.symm⟩
      · exact Or.inl hn
    · exact Or.inr ⟨p, List.mem_cons_of_mem o hp, hname⟩
  · have hle := h.sub.length_le
    rw [List.length_cons] at hlen
    omega

/-- An operator waits on. -/
theorem kept (h : Passed event ws vs d d') (hready : d.isReady event o = false)
    (hfree : d.find? event o.name = none) (hname : ∀ p ∈ ws, p.name ≠ o.name) :
    Passed event (o :: ws) (o :: vs) d d' := by
  refine ⟨h.sub.cons_cons o, List.forall_mem_cons.2 ⟨?_, h.waits⟩, List.forall_mem_cons.2
    ⟨Or.inl List.mem_cons_self, fun p hp => (h.done p hp).imp_left (List.mem_cons_of_mem o)⟩,
    fun name hn => ?_, h.grows, fun hlen => List.forall_mem_cons.2 ⟨hready, h.stuck ?_⟩⟩
  · refine Option.not_isSome_iff_eq_none.1 fun hsome => ?_
    rcases h.only o.name hsome with hsome | ⟨p, hp, hpo⟩
    · rw [hfree] at hsome
      cases hsome
    · exact hname p hp hpo
  · exact (h.only name hn).imp_right fun ⟨p, hp, hpn⟩ => ⟨p, List.mem_cons_of_mem o hp, hpn⟩
  · simpa using hlen

end Passed

namespace Live

theorem pass (h : Live event os D T d) (hD : History event os D) (h₀ : (D 0).Steady)
    (hfits : ∀ o ∈ os, o.GateFits) (hws : ∀ o ∈ ws, o ∈ os ∧ d.find? event o.name = none)
    (hnames : ws.Pairwise fun o p => p.name ≠ o.name) :
    (∃ vs d' T', Draft.pass event ws d = (.ok vs, d') ∧ Live event os D T' d' ∧
      Passed event ws vs d d') ∨
      ∃ c d', Draft.pass event ws d = (.error c, d') ∧ c.OutOfMemory := by
  induction ws generalizing d T with
  | nil => exact Or.inl ⟨[], d, T, rfl, h, .nil event d⟩
  | cons o ws ih =>
    obtain ⟨⟨ho, hfree⟩, hws⟩ := List.forall_mem_cons.1 hws
    obtain ⟨hname, hnames⟩ := List.pairwise_cons.1 hnames
    cases hready : d.isReady event o with
    | true =>
      rw [pass_of_ready hready, bind_apply, Drafting.inContext_apply]
      rcases h.step hD h₀ hfits ho hfree hready with
        ⟨d', r, op, g, T', hok, hadds, hlive⟩ | ⟨c, d', hfull, hc⟩
      · rw [hok]
        have hws' : ∀ p ∈ ws, p ∈ os ∧ d'.find? event p.name = none := by
          intro p hp
          rw [hadds.find, if_neg fun hhere => hname p hp hhere.2]
          exact hws p hp
        refine (ih hlive hws' hnames).imp_left ?_
        rintro ⟨vs, e, T'', hpass, hlive', hpassed⟩
        exact ⟨vs, e, T'', hpass, hlive', hpassed.added h.steady hadds⟩
      · rw [hfull]
        exact Or.inr ⟨_, d', rfl, hc.within _⟩
    | false =>
      rw [pass_of_waits hready, bind_apply]
      rcases ih h hws hnames with ⟨vs, d', T', hpass, hlive, hpassed⟩ | ⟨c, d', hpass, hc⟩
      · rw [hpass]
        exact Or.inl ⟨o :: vs, d', T', rfl, hlive, hpassed.kept hready hfree hname⟩
      · rw [hpass]
        exact Or.inr ⟨c, d', rfl, hc⟩

/-- Of the operators that are not there yet, the one that came first in the old order is ready. -/
theorem exists_ready (h : Live event os D T d) (hD : History event os D) (h₀ : (D 0).Steady)
    (ho : o ∈ os) (hfree : d.find? event o.name = none) :
    ∃ p ∈ os, d.find? event p.name = none ∧ d.isReady event p = true := by
  obtain ⟨l, hl⟩ := List.getElem?_of_mem ho
  have hsome : ∃ (k : Nat) (p : OperatorConfig), os[k]? = some p ∧ d.find? event p.name = none :=
    ⟨l, o, hl, hfree⟩
  classical
  obtain ⟨p, hp, hpfree⟩ := Nat.find_spec hsome
  refine ⟨p, List.mem_of_getElem? hp, hpfree, List.all_eq_true.2 fun text htext => ?_⟩
  have hknown := List.all_eq_true.1 (hD.ready _ p hp) text htext
  obtain ⟨r, n, hr, hn⟩ := exists_of_isKnown hknown
  have hfound : (d.find? event r.name).isSome = true := by
    rcases hD.isSome_find? h₀ (Option.isSome_iff_exists.2 ⟨n, hn⟩) with hbase | ⟨k, hk, q, hq, hqr⟩
    · exact h.base r.name hbase
    · have hnot := Nat.find_min hsome hk
      rw [← hqr, Option.isSome_iff_ne_none]
      exact fun hqfree => hnot ⟨q, hq, hqfree⟩
  rw [isKnown, hr]
  exact hfound

/-- All operators are added, unless the arena is full. -/
theorem addOperators (h : Live event os D T d) (hD : History event os D) (h₀ : (D 0).Steady)
    (hfits : ∀ o ∈ os, o.GateFits) (hws : ∀ o ∈ ws, o ∈ os ∧ d.find? event o.name = none)
    (hall : ∀ o ∈ os, o ∈ ws ∨ (d.find? event o.name).isSome = true)
    (hnames : ws.Pairwise fun o p => p.name ≠ o.name) {fuel : Nat} (hfuel : ws.length ≤ fuel) :
    (∃ d' T', Draft.addOperators event fuel ws d = (.ok (), d') ∧ Live event os D T' d') ∨
      ∃ c d', Draft.addOperators event fuel ws d = (.error c, d') ∧ c.OutOfMemory := by
  induction fuel generalizing d T ws with
  | zero =>
    obtain rfl := List.length_eq_zero_iff.1 (Nat.le_zero.1 hfuel)
    exact Or.inl ⟨d, T, rfl, h⟩
  | succ fuel ih =>
    cases ws with
    | nil => exact Or.inl ⟨d, T, rfl, h⟩
    | cons o ws =>
      rw [addOperators_cons]
      rcases h.pass hD h₀ hfits hws hnames with
        ⟨vs, d', T', hpass, hlive, hpassed⟩ | ⟨c, d', hpass, hc⟩
      · rw [hpass]
        cases vs with
        | nil => exact Or.inl ⟨d', T', rfl, hlive⟩
        | cons p vs =>
          have hless : (p :: vs).length ≠ ws.length + 1 := by
            intro hlen
            obtain ⟨ho, hfree⟩ := hws o List.mem_cons_self
            obtain ⟨q, hq, hqfree, hready⟩ := h.exists_ready hD h₀ ho hfree
            rcases hall q hq with hmem | hsome
            · rw [hpassed.stuck hlen q hmem] at hready
              cases hready
            · rw [hqfree] at hsome
              cases hsome
          dsimp only
          rw [if_neg hless]
          have hle := hpassed.sub.length_le
          simp only [List.length_cons] at hfuel hle hless
          refine ih hlive (fun q hq => ⟨(hws q (hpassed.sub.subset hq)).1, hpassed.waits q hq⟩)
            (fun q hq => ?_) (hnames.sublist hpassed.sub)
            (by rw [List.length_cons]; omega)
          rcases hall q hq with hmem | hsome
          · exact hpassed.done q hmem
          · obtain ⟨n, hn⟩ := Option.isSome_iff_exists.1 hsome
            exact Or.inr (Option.isSome_iff_exists.2 ⟨n, hpassed.grows.find event q.name n hn⟩)
      · rw [hpass]
        exact Or.inr ⟨c, d', rfl, hc⟩

end Live

end Draft

end Readout
