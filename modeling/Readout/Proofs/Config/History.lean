import Readout.Proofs.Config.Growth

/-!
# The history of an event

However many passes it takes, the operators of an event are added one behind the other, each when
what it refers to has a name. So a build that went through gives an order of its operators, and a
draft before and behind each of them.
-/
namespace Readout

namespace Draft

variable {d e f : Draft} {event : Nat} {o : OperatorConfig} {os ps ws : List OperatorConfig}

theorem pass_of_ready (h : d.isReady event o = true) :
    pass event (o :: os) d =
      (inContext (.operator event o.name) (addOperator event o) >>= fun _ => pass event os) d := by
  rw [pass, bind_apply]
  change (if d.isReady event o = true then _ else _ : Drafting (List OperatorConfig)) d = _
  rw [if_pos h]

theorem pass_of_waits (h : d.isReady event o = false) :
    pass event (o :: os) d = (pass event os >>= fun ws => pure (o :: ws)) d := by
  rw [pass, bind_apply]
  change (if d.isReady event o = true then _ else _ : Drafting (List OperatorConfig)) d = _
  rw [if_neg (ne_true_of_eq_false h)]

/-- What a pass makes of the first operator: it fails, or is added, or waits. -/
theorem pass_cases {s : Except Error (List OperatorConfig)}
    (h : pass event (o :: os) d = (s, e)) :
    (d.isReady event o = true ∧ ∃ c, addOperator event o d = (.error c, e) ∧
      s = .error (.within (.operator event o.name) c)) ∨
    (d.isReady event o = true ∧ ∃ f, addOperator event o d = (.ok (), f) ∧
      pass event os f = (s, e)) ∨
    (d.isReady event o = false ∧ ∃ t, pass event os d = (t, e) ∧ s = t.map (o :: ·)) := by
  cases hr : d.isReady event o with
  | true =>
    rw [pass_of_ready hr, bind_apply, Drafting.inContext_apply] at h
    rcases ha : addOperator event o d with ⟨c | u, f⟩
    · rw [ha] at h
      obtain ⟨hs, rfl⟩ := Prod.mk.inj h
      exact Or.inl ⟨rfl, c, rfl, hs.symm⟩
    · rw [ha] at h
      exact Or.inr (Or.inl ⟨rfl, f, rfl, h⟩)
  | false =>
    rw [pass_of_waits hr, bind_apply] at h
    refine Or.inr (Or.inr ⟨rfl, (pass event os d).1, ?_⟩)
    rcases hp : pass event os d with ⟨c | ws, f⟩
    all_goals
      rw [hp] at h
      obtain ⟨hs, rfl⟩ := Prod.mk.inj h
      exact ⟨rfl, hs.symm⟩

theorem addOperators_cons (event fuel : Nat) (o : OperatorConfig) (os : List OperatorConfig)
    (d : Draft) :
    addOperators event (fuel + 1) (o :: os) d =
      match pass event (o :: os) d with
      | (.error c, e) => (.error c, e)
      | (.ok [], e) => (.ok (), e)
      | (.ok (p :: ps), e) =>
        if (p :: ps).length = os.length + 1 then addOperators.unresolved event p e
        else addOperators event fuel (p :: ps) e := by
  rw [addOperators, bind_apply]
  rcases pass event (o :: os) d with ⟨c | ws, e⟩
  · rfl
  · cases ws with
    | nil => rfl
    | cons p ps =>
      dsimp only
      split <;> rfl

/-- The operators were added one behind the other. -/
inductive AddsAll (event : Nat) : List OperatorConfig → Draft → Draft → Prop
  | nil (d : Draft) : AddsAll event [] d d
  | cons {o : OperatorConfig} {os : List OperatorConfig} {d e f : Draft}
    (hr : d.isReady event o = true) (ha : addOperator event o d = (.ok (), e))
    (h : AddsAll event os e f) : AddsAll event (o :: os) d f

namespace AddsAll

theorem append (h : AddsAll event os d e) (k : AddsAll event ps e f) :
    AddsAll event (os ++ ps) d f := by
  induction h with
  | nil d => exact k
  | cons hr ha _ ih => exact .cons hr ha (ih k)

theorem of_pass (h : pass event os d = (.ok ws, e)) :
    ∃ ps, AddsAll event ps d e ∧ (ps ++ ws).Perm os := by
  induction os generalizing d ws with
  | nil =>
    obtain ⟨hw, rfl⟩ := Prod.mk.inj h
    obtain rfl := Except.ok.inj hw
    exact ⟨[], .nil d, .refl _⟩
  | cons o os ih =>
    rcases pass_cases h with ⟨-, c, -, hs⟩ | ⟨hr, f, ha, hp⟩ | ⟨-, t, hp, hs⟩
    · cases hs
    · obtain ⟨ps, hps, hperm⟩ := ih hp
      exact ⟨o :: ps, .cons hr ha hps, hperm.cons o⟩
    · cases t with
      | error c => cases hs
      | ok vs =>
        obtain rfl := Except.ok.inj hs
        obtain ⟨ps, hps, hperm⟩ := ih hp
        exact ⟨ps, hps, List.perm_middle.trans (hperm.cons o)⟩

theorem of_addOperators {fuel : Nat} (h : addOperators event fuel os d = (.ok (), e)) :
    ∃ ps, AddsAll event ps d e ∧ ps.Perm os := by
  induction fuel generalizing os d with
  | zero =>
    cases os with
    | nil =>
      obtain ⟨-, rfl⟩ := Prod.mk.inj h
      exact ⟨[], .nil d, .refl _⟩
    | cons o os => cases h
  | succ fuel ih =>
    cases os with
    | nil =>
      obtain ⟨-, rfl⟩ := Prod.mk.inj h
      exact ⟨[], .nil d, .refl _⟩
    | cons o os =>
      rw [addOperators_cons] at h
      rcases hp : pass event (o :: os) d with ⟨c | ws, d'⟩
      · rw [hp] at h
        cases h
      rw [hp] at h
      obtain ⟨ps, hps, hperm⟩ := of_pass hp
      cases ws with
      | nil =>
        obtain ⟨-, rfl⟩ := Prod.mk.inj h
        exact ⟨ps, hps, by simpa using hperm⟩
      | cons p ws =>
        dsimp only at h
        split at h
        · cases h
        · obtain ⟨qs, hqs, hperm'⟩ := ih h
          exact ⟨ps ++ qs, hps.append hqs, (hperm'.append_left ps).trans hperm⟩

theorem steady (h : AddsAll event os d e) (hd : d.Steady) : e.Steady := by
  induction h with
  | nil d => exact hd
  | cons _ ha _ ih =>
    obtain ⟨r, op, g, hadds⟩ := hd.adds ha
    exact ih (hadds.steady hd ha)

theorem isSome_find? (h : AddsAll event os d e) (hd : d.Steady) (i : Nat) (name : String) :
    (e.find? i name).isSome = true ↔
      (d.find? i name).isSome = true ∨ i = event ∧ ∃ o ∈ os, o.name = name := by
  induction h with
  | nil d => simp
  | cons _ ha _ ih =>
    obtain ⟨r, op, g, hadds⟩ := hd.adds ha
    rw [ih (hadds.steady hd ha), hadds.find]
    split
    · next hhere =>
      obtain ⟨rfl, rfl⟩ := hhere
      simp
    · next hother =>
      simp only [List.exists_mem_cons_iff]
      grind

theorem isSome_lookup (h : AddsAll event os d e) (hd : d.Steady) (x : NodeName) :
    (e.operators.lookup x).isSome = true ↔
      (d.operators.lookup x).isSome = true ∨ ∃ o ∈ os, x = ⟨event, o.name⟩ := by
  induction h with
  | nil d => simp
  | @cons o _ _ _ _ _ ha _ ih =>
    obtain ⟨r, op, g, hadds⟩ := hd.adds ha
    rw [ih (hadds.steady hd ha), hadds.tags, List.lookup_cons]
    by_cases hx : x = ⟨event, o.name⟩
    · rw [beq_iff_eq.2 hx]
      simp [hx]
    · rw [beq_false_of_ne hx]
      simp [hx]

theorem level_node (h : AddsAll event os d e) (hd : d.Steady) (i : Nat) :
    e.level (.node i) = d.level (.node i) + if i = event then os.length else 0 := by
  induction h with
  | nil d => simp
  | cons _ ha _ ih =>
    obtain ⟨r, op, g, hadds⟩ := hd.adds ha
    rw [ih (hadds.steady hd ha)]
    by_cases hi : i = event
    · rw [hi, hadds.level_node, if_pos rfl, if_pos rfl, List.length_cons]
      omega
    · rw [if_neg hi, if_neg hi, (hadds.level_other hi).2]

end AddsAll

/-- The drafts before and behind each operator of an event. -/
structure History (event : Nat) (os : List OperatorConfig) (D : Nat → Draft) : Prop where
  ready : ∀ k o, os[k]? = some o → (D k).isReady event o = true
  adds : ∀ k o, os[k]? = some o → addOperator event o (D k) = (.ok (), D (k + 1))
  rest : ∀ k, os.length ≤ k → D (k + 1) = D k

theorem AddsAll.history (h : AddsAll event os d e) :
    ∃ D, History event os D ∧ D 0 = d ∧ D os.length = e := by
  induction h with
  | nil d => exact ⟨fun _ => d, ⟨nofun, nofun, fun _ _ => rfl⟩, rfl, rfl⟩
  | @cons o os d _ _ hr ha _ ih =>
    obtain ⟨D, hD, rfl, rfl⟩ := ih
    refine ⟨fun k => k.casesOn d D, ⟨fun k p hp => ?_, fun k p hp => ?_, fun k hk => ?_⟩, rfl, rfl⟩
    · cases k with
      | zero =>
        obtain rfl := Option.some.inj hp
        exact hr
      | succ k => exact hD.ready k p hp
    · cases k with
      | zero =>
        obtain rfl := Option.some.inj hp
        exact ha
      | succ k => exact hD.adds k p hp
    · cases k with
      | zero => cases hk
      | succ k => exact hD.rest k (Nat.le_of_succ_le_succ hk)

namespace History

variable {D : Nat → Draft}

theorem steady (h : History event os D) (h₀ : (D 0).Steady) (k : Nat) : (D k).Steady := by
  induction k with
  | zero => exact h₀
  | succ k ih =>
    cases ho : os[k]? with
    | none => exact h.rest k (List.getElem?_eq_none_iff.1 ho) ▸ ih
    | some o =>
      obtain ⟨r, op, g, hadds⟩ := ih.adds (h.adds k o ho)
      exact hadds.steady ih (h.adds k o ho)

theorem grows (h : History event os D) (h₀ : (D 0).Steady) {k l : Nat} (hkl : k ≤ l) :
    (D k).Grows (D l) := by
  induction hkl with
  | refl => exact .refl _
  | @step l _ ih =>
    refine ih.trans ?_
    have hl := h.steady h₀ l
    cases ho : os[l]? with
    | none => exact (h.rest l (List.getElem?_eq_none_iff.1 ho)).symm ▸ .refl (D l)
    | some o =>
      obtain ⟨r, op, g, hadds⟩ := hl.adds (h.adds l o ho)
      exact hadds.grows hl

theorem find_behind (h : History event os D) (h₀ : (D 0).Steady) {k l : Nat} (ho : os[k]? = some o)
    (hkl : k < l) : ((D l).find? event o.name).isSome = true := by
  obtain ⟨r, op, g, hadds⟩ := (h.steady h₀ k).adds (h.adds k o ho)
  rw [(h.grows h₀ (Nat.succ_le_of_lt hkl)).find event o.name _ hadds.find_here]
  rfl

/-- No name is given twice. -/
theorem eq_of_name (h : History event os D) (h₀ : (D 0).Steady) {k l : Nat} {p : OperatorConfig}
    (ho : os[k]? = some o) (hp : os[l]? = some p) (hname : o.name = p.name) : k = l := by
  have hle : ∀ {k l : Nat} {o p : OperatorConfig}, os[k]? = some o → os[l]? = some p →
      o.name = p.name → l ≤ k := by
    intro k l o p ho hp hname
    refine Nat.not_lt.1 fun hkl => ?_
    obtain ⟨r, op, g, hadds⟩ := (h.steady h₀ l).adds (h.adds l p hp)
    have hsome := h.find_behind h₀ ho hkl
    rw [hname, hadds.free] at hsome
    cases hsome
  exact Nat.le_antisymm (hle hp ho hname.symm) (hle ho hp hname)

/-- What has a name had one before, or is one of the operators that were added. -/
theorem isSome_find? (h : History event os D) (h₀ : (D 0).Steady) {k : Nat} {name : String}
    (hn : ((D k).find? event name).isSome = true) :
    ((D 0).find? event name).isSome = true ∨ ∃ l < k, ∃ o, os[l]? = some o ∧ o.name = name := by
  induction k with
  | zero => exact Or.inl hn
  | succ k ih =>
    have hstep : ((D k).find? event name).isSome = true ∨ ∃ o, os[k]? = some o ∧ o.name = name := by
      cases ho : os[k]? with
      | none => exact Or.inl (h.rest k (List.getElem?_eq_none_iff.1 ho) ▸ hn)
      | some o =>
        obtain ⟨r, op, g, hadds⟩ := (h.steady h₀ k).adds (h.adds k o ho)
        rw [hadds.find] at hn
        split at hn
        · next hhere => exact Or.inr ⟨o, rfl, hhere.2.symm⟩
        · exact Or.inl hn
    rcases hstep with hn | ⟨o, ho, hname⟩
    · exact (ih hn).imp_right fun ⟨l, hl, hrest⟩ => ⟨l, Nat.lt_succ_of_lt hl, hrest⟩
    · exact Or.inr ⟨k, Nat.lt_succ_self k, o, ho, hname⟩

end History

end Draft

end Readout
