import Readout.Proofs.Config.History

/-!
# Drafts that mirror each other

One draft mirrors another when everything that it has is in the other one too, under the same name,
though it may lie elsewhere. An operator that was added to the other draft can be added to this one
as soon as what it refers to is known, unless the arena is full, and then it is mirrored as well.
-/
namespace Readout

variable {R B : Ties}

theorem Kind.Tied.bitCount_eq {k l : Kind} (h : k.Tied R B l) : k.bitCount = l.bitCount := by
  cases h <;> rfl

theorem Operator.Alike.seated {op op' : Operator} (h : op.Alike R op') {g g' : Option Nat}
    (hg : Option.Rel B g g') {i j : Nat} (hb : ∀ m < op.kind.bitCount, B (i + m) (j + m)) :
    (op.seated g i).Tied R B (op'.seated g' j) := by
  obtain ⟨inputs, outputs, gate, kind⟩ := op
  obtain ⟨inputs', outputs', gate', kind'⟩ := op'
  obtain ⟨hi, ho, -, hk⟩ := h
  dsimp only at hk hb
  refine ⟨hi, ho, hg, ?_⟩
  rw [Operator.seated, Operator.seated]
  cases hk with
  | calibration h => exact .calibration h
  | keepPrevious keepValid h => exact .keepPrevious keepValid h
  | difference => exact .difference
  | arrayMap mappings => exact .arrayMap mappings
  | equation e => exact .equation e
  | aggregate r w => exact .aggregate r w
  | rangeFilter w inverted => exact .rangeFilter w inverted
  | rectangleFilter x y junction => exact .rectangleFilter x y junction
  | conditionFilter inverted => exact .conditionFilter inverted
  | scalerOverflow hl hv => exact .scalerOverflow hl hv
  | expression e => exact .expression e
  | histograms h => exact .histograms h
  | planeHistogram h => exact .planeHistogram h
  | rateMonitor samplers mode h => exact .rateMonitor samplers mode h
  | exportSink s t => exact .exportSink s t
  | intervalCondition intervals _ =>
    cases intervals with
    | nil => exact .intervalCondition [] fun k hk => absurd hk (Nat.not_lt_zero k)
    | cons w ws => exact .intervalCondition (w :: ws) hb
  | rectangleCondition x y _ => exact .rectangleCondition x y (hb 0 Nat.zero_lt_one)
  | polygonCondition polygon _ => exact .polygonCondition polygon (hb 0 Nat.zero_lt_one)

/-- New ties in a range that no old tie leads to. -/
theorem Ties.Unique.or {T N : Ties} (hT : T.Unique) (hN : N.Unique) {l lo hi : Nat}
    (hleft : ∀ i j, T i j → i < l) (havoid : ∀ i j, T i j → ¬ (lo ≤ j ∧ j < hi))
    (hnew : ∀ i j, N i j → T i j ∨ l ≤ i ∧ lo ≤ j ∧ j < hi) :
    Unique fun i j => T i j ∨ N i j := by
  have hcross : ∀ i j, T i j → ∀ k m, N k m → (i = k ↔ j = m) := by
    intro i j hij k m hkm
    rcases hnew k m hkm with hold | ⟨hk, hm⟩
    · exact hT hij hold
    · have hi := hleft i j hij
      have hj := havoid i j hij
      constructor
      · intro h
        omega
      · rintro rfl
        exact absurd hm hj
  rintro i j (hij | hij) k m (hkm | hkm)
  · exact hT hij hkm
  · exact hcross i j hij k m hkm
  · rw [eq_comm, eq_comm (a := j)]
    exact hcross k m hkm i j hij
  · exact hN hij hkm

/-- The gate does not refer to an element so far out that its number is taken modulo the word
size. -/
def OperatorConfig.GateFits (o : OperatorConfig) : Prop :=
  ∀ text ∈ o.gate, ∀ r ∈ Reference.parse? text,
    r.element.getD 0 + EventPlan.maxBits < Word.size 64

instance (o : OperatorConfig) : Decidable o.GateFits :=
  inferInstanceAs (Decidable (∀ text ∈ o.gate, ∀ r ∈ Reference.parse? text, _ < _))

namespace Draft

variable {T : Place → Ties} {d e f d' e' : Draft} {event : Nat} {o : OperatorConfig}
  {os : List OperatorConfig}

/-- Everything in the first draft is in the second one, in tied places. -/
structure Mirrors (T : Place → Ties) (d f : Draft) : Prop where
  unique : ∀ κ, (T κ).Unique
  left : ∀ κ i j, T κ i j → i < d.level κ
  right : ∀ κ i j, T κ i j → j < f.level κ
  slots : d.plan.arena.store.slots = f.plan.arena.store.slots
  read : ∀ i j, T .cell i j → d.plan.arena.store.read i = f.plan.arena.store.read j
  names : ∀ i name n, d.find? i name = some n → ∃ m, f.find? i name = some m ∧
    n.Tied (T .cell) (T (.bit i)) m
  tags : ∀ x h, d.operators.lookup x = some h → ∃ k, f.operators.lookup x = some k ∧
    h.event = x.event ∧ k.event = x.event ∧ T (.node x.event) h.index k.index
  nodes : ∀ (i j : Nat) (o : RankedOperator), (d.eventAt i).operators[j]? = some o →
    ∃ k p, T (.node i) j k ∧ (f.eventAt i).operators[k]? = some p ∧
      o.operator.Tied (T .cell) (T (.bit i)) p.operator
  sources : ∀ i, (d.eventAt i).sources = (f.eventAt i).sources
  anchored : ∀ i, ∀ s ∈ (d.eventAt i).sources, ∀ p ∈ s.owned, ∀ j ∈ p, T .cell j j

namespace Mirrors

theorem grows (h : Mirrors T d e) (he : e.Grows f) : Mirrors T d f where
  unique := h.unique
  left := h.left
  right κ i j hij := Nat.lt_of_lt_of_le (h.right κ i j hij) (he.level κ)
  slots := h.slots.trans he.store.slots_eq
  read i j hij := (h.read i j hij).trans (he.store.read_eq j (h.right .cell i j hij))
  names i name n hn := by
    obtain ⟨m, hm, hnm⟩ := h.names i name n hn
    exact ⟨m, he.find i name m hm, hnm⟩
  tags x t ht := by
    obtain ⟨k, hk, hrest⟩ := h.tags x t ht
    exact ⟨k, he.tags x k hk, hrest⟩
  nodes i j o ho := by
    obtain ⟨k, p, hjk, hp, hop⟩ := h.nodes i j o ho
    exact ⟨k, p, hjk, he.nodes i k p hp, hop⟩
  sources i := (h.sources i).trans (he.sources i)
  anchored := h.anchored

/-- Of what lies behind, the part that was there at an earlier time. -/
theorem arena (h : Mirrors T d f) (he : e.Grows f) (hd : d.Steady) (hes : e.Steady) :
    Arena.Tied ((T .cell).within (e.level .cell)) d.plan.arena e.plan.arena := by
  have hslots : d.plan.arena.store.slots = e.plan.arena.store.slots :=
    h.slots.trans he.store.slots_eq.symm
  refine ⟨⟨(h.unique .cell).within _, hslots, fun i j hij => ?_, fun i j hij => ?_,
    fun i j hij => ?_, hd.small⟩, fun i j hij => h.left .cell i j hij.1, fun i j hij => hij.2,
    hd.roomy.room, hes.roomy.room⟩
  · exact Nat.lt_of_lt_of_le (h.left .cell i j hij.1) hd.roomy.edge_le
  · exact Nat.lt_of_lt_of_le hij.2 hes.roomy.edge_le
  · exact (h.read i j hij.1).trans (he.store.read_eq j hij.2).symm

theorem shares (h : Mirrors T d f) (he : e.Grows f) (hes : e.Steady) :
    Shares ((T .cell).within (e.level .cell)) (T (.bit event)) event d e := by
  intro name n m hn hm
  obtain ⟨m', hm', hnm⟩ := h.names event name n hn
  obtain rfl := Option.some.inj (hm'.symm.trans (he.find event name m hm))
  have hbelow : ∀ q ∈ m'.outputs, ∀ t ∈ q.spans, t.stop ≤ e.level .cell := fun q hq =>
    hes.holding.stop_le ⟨m', mem_namesOf_of_find? hm, q, hq, List.mem_cons_self⟩
  refine ⟨?_, hnm.bits⟩
  refine (List.forall₂_iff_get.2 ⟨hnm.outputs.length_eq, fun i hi hi' => ?_⟩)
  exact (hnm.outputs.get hi hi').within (hbelow _ (List.getElem_mem hi'))

end Mirrors

theorem exists_addOperator {p : EventPlan} {op : Operator}
    (hroom : p.operators.length ≤ Handle.maxIndex) (hgate : ∀ bit ∈ op.gate, bit < p.bitCount) :
    ∃ p', p.addOperator op = .ok p' := by
  obtain ⟨rank, hrank⟩ : ∃ rank, p.rankFor op = .ok rank := by
    rw [EventPlan.rankFor]
    cases hg : op.gate with
    | none => exact ⟨_, rfl⟩
    | some bit =>
      have hlt : bit < p.bitRanks.length := hgate bit hg
      dsimp only
      rw [List.getElem?_eq_getElem hlt]
      exact ⟨_, rfl⟩
  rw [EventPlan.addOperator, if_neg (Nat.not_lt.2 hroom), hrank]
  exact ⟨_, rfl⟩

/-- An operator that was added to both drafts: it was made from what is tied, and so are the spans
that it took and its gate bits. -/
structure AddsBoth (T : Place → Ties) (R : Ties) (event : Nat) (o : OperatorConfig) (r r' : Recipe)
    (op op' : Operator) (g g' : Option Nat) (d e d' e' : Draft) : Prop where
  left : Adds event o r op g d d'
  right : Adds event o r' op' g' e e'
  remade : Arena.Remade ((T .cell).within (e.level .cell)) R (e.level .cell) d.plan.arena
    e.plan.arena d'.plan.arena e'.plan.arena
  alike : op.Alike R op'
  gate : Option.Rel (T (.bit event)) g g'

/-- What was added to a draft can be added to one that mirrors what came of it. -/
theorem Mirrors.attempt (h : Mirrors T d f) (hd : d.Steady) (hes : e.Steady) (hef : e.Grows f)
    {r' : Recipe} {op' : Operator} {g' : Option Nat} (he : Adds event o r' op' g' e e')
    (hfree : d.find? event o.name = none) (hready : d.isReady event o = true)
    (hroom : d.level (.node event) ≤ Handle.maxIndex) (hfits : o.GateFits) :
    (∃ r op g d' R, addOperator event o d = (.ok (), d') ∧
      AddsBoth T R event o r r' op op' g g' d e d' e') ∨
      ∃ c d', addOperator event o d = (.error c, d') ∧ c.OutOfMemory := by
  have harena := h.arena hef hd hes
  have hshares : Shares _ (T (.bit event)) event d e := h.shares hef hes
  have hknown : ∀ text ∈ o.references, d.isKnown event text = true := List.all_eq_true.1 hready
  obtain ⟨hinputs, hgates⟩ := List.forall_mem_append.1 hknown
  have hclaim : d.claimed event o.name = .ok () := by
    have hplain := he.claimed
    rw [claimed] at hplain ⊢
    split at hplain
    · cases hplain
    · next hname =>
      rw [if_neg hname, hfree]
      rfl
  obtain ⟨r, hrecipe, hrr⟩ := yields_recipe harena.store hshares hinputs r' he.recipe
  obtain ⟨g, hgate, hgg⟩ := yields_gateBit hshares (hd.narrow event) (hes.narrow event)
    (fun text ht => hgates text (Option.mem_toList.2 ht)) hfits g' he.gate
  have heven : ∀ v ∈ r'.inputs, v.Even := fun v hv => hes.holding.even (he.known hes v hv)
  rcases hrr.follows heven d.plan.arena e.plan.arena op' e'.plan.arena harena (Nat.le_refl _)
    he.make with ⟨op, a, R, hmake, hremade, halike⟩ | ⟨c, a, hmake, hc⟩
  · have hevent := hd.within he.within
    have hnone : op.gate = none := (r.takes_make.result d.plan.arena op (by rw [hmake])).gate_eq
    have hbit : ∀ bit ∈ (op.gatedBy g).gate, bit < (d.eventAt event).bitCount := by
      intro bit hbit
      cases hgg with
      | none =>
        rw [Operator.gatedBy, hnone] at hbit
        cases hbit
      | some hij =>
        obtain rfl := Option.some.inj hbit
        exact h.left (.bit event) _ _ hij
    obtain ⟨p', hadd⟩ := exists_addOperator hroom hbit
    have hok := Stages.addOperator ⟨hclaim, hrecipe, hmake, hgate, hevent, hadd⟩
    obtain ⟨r₁, op₁, g₁, hadds⟩ := hd.adds hok
    obtain rfl := Except.ok.inj (hrecipe.symm.trans hadds.recipe)
    obtain rfl := Except.ok.inj (hgate.symm.trans hadds.gate)
    obtain ⟨hop, -⟩ := Prod.mk.inj (hmake.symm.trans hadds.make)
    obtain rfl := Except.ok.inj hop
    exact Or.inl ⟨r, op, g, _, R, hok, hadds, he, hremade, halike, hgg⟩
  · refine Or.inr ⟨c, { d with plan := { d.plan with arena := a } }, ?_, hc⟩
    rw [addOperator_apply, hclaim, hrecipe]
    dsimp only
    rw [hmake]

/-- The ties of what an operator takes on both sides. -/
def fresh (event : Nat) (R : Ties) (bits : Nat) (d e : Draft) : Place → Ties
  | .cell => R
  | .bit k => fun i j => k = event ∧
    ∃ m < bits, i = d.level (.bit event) + m ∧ j = e.level (.bit event) + m
  | .node k => fun i j => k = event ∧ i = d.level (.node event) ∧ j = e.level (.node event)

theorem unique_fresh (hR : R.Unique) (bits : Nat) (κ : Place) :
    (fresh event R bits d e κ).Unique := by
  cases κ with
  | cell => exact hR
  | bit k =>
    rintro i j ⟨-, m, -, rfl, rfl⟩ i' j' ⟨-, m', -, rfl, rfl⟩
    omega
  | node k =>
    rintro i j ⟨-, rfl, rfl⟩ i' j' ⟨-, rfl, rfl⟩
    exact iff_of_true rfl rfl

/-- The ties once the operator is there. -/
def joined (T : Place → Ties) (event : Nat) (R : Ties) (bits : Nat) (d e : Draft) : Place → Ties :=
  fun κ i j => T κ i j ∨ fresh event R bits d e κ i j

namespace AddsBoth

variable {r r' : Recipe} {op op' : Operator} {g g' : Option Nat}

theorem bitCount_eq (h : AddsBoth T R event o r r' op op' g g' d e d' e') :
    op.kind.bitCount = op'.kind.bitCount :=
  h.alike.kind.bitCount_eq

theorem fresh_cases (h : AddsBoth T R event o r r' op op' g g' d e d' e') {κ : Place} {i j : Nat}
    (hij : fresh event R op.kind.bitCount d e κ i j) :
    T κ i j ∨ d.level κ ≤ i ∧ i < d'.level κ ∧ e.level κ ≤ j ∧ j < e'.level κ := by
  cases κ with
  | cell =>
    refine (h.remade.grown.fresh i j hij).imp And.left fun ⟨hi, hj⟩ => ⟨hi, ?_, hj, ?_⟩
    · exact h.remade.tied.left i j hij
    · exact h.remade.tied.right i j hij
  | bit k =>
    obtain ⟨rfl, m, hm, rfl, rfl⟩ := hij
    have hbits := h.bitCount_eq
    rw [h.left.level_bit, h.right.level_bit]
    exact Or.inr ⟨by omega, by omega, by omega, by omega⟩
  | node k =>
    obtain ⟨rfl, rfl, rfl⟩ := hij
    rw [h.left.level_node, h.right.level_node]
    exact Or.inr ⟨by omega, by omega, by omega, by omega⟩

/-- The operator has tied pipes and bits under its name. -/
theorem named (h : AddsBoth T R event o r r' op op' g g' d e d' e') :
    (op.named o.name (d.level (.bit event))).Tied (joined T event R op.kind.bitCount d e .cell)
      (joined T event R op.kind.bitCount d e (.bit event))
      (op'.named o.name (e.level (.bit event))) := by
  refine ⟨h.alike.outputs.imp fun p q hpq => hpq.mono fun i j => Or.inr, ?_⟩
  rw [Operator.named, Operator.named, ← h.bitCount_eq]
  split
  · refine .some ⟨by simp, fun k hk => Or.inr ⟨rfl, k, ?_, rfl, rfl⟩⟩
    exact Nat.lt_of_lt_of_eq hk (Nat.add_sub_cancel_left ..)
  · exact .none

theorem seated (h : AddsBoth T R event o r r' op op' g g' d e d' e') :
    (op.seated g (d.level (.bit event))).Tied (joined T event R op.kind.bitCount d e .cell)
      (joined T event R op.kind.bitCount d e (.bit event))
      (op'.seated g' (e.level (.bit event))) := by
  refine Operator.Alike.seated (h.alike.mono (fun _ _ => Or.inr) fun _ _ => id) ?_
    fun m hm => Or.inr ⟨rfl, m, hm, rfl, rfl⟩
  cases h.gate with
  | none => exact .none
  | some hij => exact .some (Or.inl hij)

/-- The counterpart of the operator at the end of its event. -/
theorem node (h : AddsBoth T R event o r r' op op' g g' d e d' e') (hef : e'.Grows f) {j : Nat}
    {p : RankedOperator} (hp : (d'.eventAt event).operators[j]? = some p) :
    (d.eventAt event).operators[j]? = some p ∨
      ∃ k q, joined T event R op.kind.bitCount d e (.node event) j k ∧
        (f.eventAt event).operators[k]? = some q ∧
        p.operator.Tied (joined T event R op.kind.bitCount d e .cell)
          (joined T event R op.kind.bitCount d e (.bit event)) q.operator := by
  obtain ⟨rank, hops⟩ := h.left.operators
  obtain ⟨rank', hops'⟩ := h.right.operators
  rw [hops, List.getElem?_append] at hp
  split at hp
  · exact Or.inl hp
  · next hlen =>
    obtain ⟨hzero, hp⟩ := List.getElem?_eq_some_iff.1 hp
    obtain rfl := (List.getElem_singleton hzero).symm.trans hp
    have hj : j = d.level (.node event) := by
      rw [List.length_singleton] at hzero
      rw [level]
      omega
    have hlast : (e'.eventAt event).operators[e.level (.node event)]? =
        some ⟨op'.seated g' (e.level (.bit event)), rank'⟩ := by
      rw [hops']
      exact List.getElem?_concat_length
    exact Or.inr ⟨_, _, Or.inr ⟨rfl, hj, rfl⟩, hef.nodes event _ _ hlast, h.seated⟩

/-- The handle of the operator, under its name. -/
theorem tag (h : AddsBoth T R event o r r' op op' g g' d e d' e') (hef : e'.Grows f) :
    ∃ k, f.operators.lookup ⟨event, o.name⟩ = some k ∧
      (Handle.new event (d.level (.node event))).event = event ∧ k.event = event ∧
      joined T event R op.kind.bitCount d e (.node event)
        (Handle.new event (d.level (.node event))).index k.index := by
  have hsmall : event < 2 ^ 8 := Nat.lt_trans h.left.within (by decide)
  have hlookup : e'.operators.lookup ⟨event, o.name⟩ =
      some (Handle.new event (e.level (.node event))) := by
    rw [h.right.tags, List.lookup_cons_self]
  exact ⟨_, hef.tags _ _ hlookup, Handle.event_new hsmall h.left.room,
    Handle.event_new hsmall h.right.room,
    Or.inr ⟨rfl, Handle.index_new hsmall h.left.room, Handle.index_new hsmall h.right.room⟩⟩

end AddsBoth

/-- An operator that was added on both sides is mirrored. -/
theorem Mirrors.extend {r r' : Recipe} {op op' : Operator} {g g' : Option Nat}
    (h : Mirrors T d f) (hd : d.Steady) (hadds : AddsBoth T R event o r r' op op' g g' d e d' e')
    (hef : e'.Grows f) (havoid : ∀ κ i j, T κ i j → ¬ (e.level κ ≤ j ∧ j < e'.level κ)) :
    Mirrors (joined T event R op.kind.bitCount d e) d' f := by
  have hgrows := hadds.left.grows hd
  have hunique := hadds.remade.tied.store.unique
  refine ⟨fun κ => ?_, fun κ i j hij => ?_, fun κ i j hij => ?_, ?_, fun i j hij => ?_,
    fun i name n hn => ?_, fun x t ht => ?_, fun i j p hp => ?_, fun i => ?_,
    fun i s hs p hp j hj => ?_⟩
  · exact (h.unique κ).or (unique_fresh hunique _ κ) (h.left κ) (havoid κ) fun i j hij =>
      (hadds.fresh_cases hij).imp_right fun hnew => ⟨hnew.1, hnew.2.2⟩
  · rcases hij with hij | hij
    · exact Nat.lt_of_lt_of_le (h.left κ i j hij) (hgrows.level κ)
    · rcases hadds.fresh_cases hij with hij | ⟨-, hi, -⟩
      · exact Nat.lt_of_lt_of_le (h.left κ i j hij) (hgrows.level κ)
      · exact hi
  · rcases hij with hij | hij
    · exact h.right κ i j hij
    · rcases hadds.fresh_cases hij with hij | ⟨-, -, -, hj⟩
      · exact h.right κ i j hij
      · exact Nat.lt_of_lt_of_le hj (hef.level κ)
  · exact hgrows.store.slots_eq.symm.trans h.slots
  · rcases hij with hij | hij
    · exact (hgrows.store.read_eq i (h.left .cell i j hij)).symm.trans (h.read i j hij)
    · exact (hadds.remade.tied.store.read_eq i j hij).trans
        (hef.store.read_eq j (hadds.remade.tied.right i j hij))
  · rw [hadds.left.find] at hn
    split at hn
    · next hi =>
      obtain ⟨rfl, rfl⟩ := hi
      obtain rfl := Option.some.inj hn
      exact ⟨_, hef.find i o.name _ hadds.right.find_here, hadds.named⟩
    · obtain ⟨m, hm, hnm⟩ := h.names i name n hn
      exact ⟨m, hm, hnm.mono (fun i j => Or.inl) fun i j => Or.inl⟩
  · rw [hadds.left.tags, List.lookup_cons] at ht
    split at ht
    · next hx =>
      obtain rfl := eq_of_beq hx
      obtain rfl := Option.some.inj ht
      exact hadds.tag hef
    · obtain ⟨k, hk, hevent, hevent', hindex⟩ := h.tags x t ht
      exact ⟨k, hk, hevent, hevent', Or.inl hindex⟩
  · have hold : (d.eventAt i).operators[j]? = some p ∨
        ∃ k q, joined T event R op.kind.bitCount d e (.node i) j k ∧
          (f.eventAt i).operators[k]? = some q ∧
          p.operator.Tied (joined T event R op.kind.bitCount d e .cell)
            (joined T event R op.kind.bitCount d e (.bit i)) q.operator := by
      by_cases hi : i = event
      · subst hi
        exact hadds.node hef hp
      · rw [hadds.left.others i hi] at hp
        exact Or.inl hp
    rcases hold with hp | hnew
    · obtain ⟨k, q, hjk, hq, hpq⟩ := h.nodes i j p hp
      exact ⟨k, q, Or.inl hjk, hq, hpq.mono (fun i j => Or.inl) fun i j => Or.inl⟩
    · exact hnew
  · exact (hadds.left.sources_eq i).trans (h.sources i)
  · exact Or.inl (h.anchored i s (hadds.left.sources_eq i ▸ hs) p hp j hj)

end Draft

end Readout
