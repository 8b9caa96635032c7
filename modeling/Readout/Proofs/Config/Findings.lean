import Readout.Proofs.Config.Reorder
import Readout.Proofs.Graph.Strategy
import Readout.Proofs.Graph.Tied

/-!
# The order of the operators in a configuration

Operators may be listed in any order. Whichever it is, an analysis can be built or not, and shows
the same under the same names after any calls of any runs: outputs with their limits, condition
bits, and histograms.
-/
namespace Readout

/-- What an operator shows, wherever it lies. -/
structure Finding where
  /-- The values of each output, with their lower and upper limits. -/
  outputs : List (List Value × List Value × List Value)
  bits : List Bool
  lines : List (Histogram × List Value)
  planes : List (PlaneHistogram × List Value)
deriving DecidableEq

/-- A histogram as it would be at the start of an arena, with its contents. -/
def Histogram.shown (h : Histogram) (store : Store) : Histogram × List Value :=
  ({ h with data := ⟨0, h.data.length⟩ }, store.values h.data)

def PlaneHistogram.shown (h : PlaneHistogram) (store : Store) : PlaneHistogram × List Value :=
  ({ h with data := ⟨0, h.data.length⟩ }, store.values h.data)

namespace Kind

def lines : Kind → List Histogram
  | histograms hs => hs
  | _ => []

def planes : Kind → List PlaneHistogram
  | planeHistogram h => [h]
  | _ => []

/-- The bits of a condition from its first one on. -/
def tests (k : Kind) (bits : ConditionBits) : List Bool :=
  match k.firstBit? with
  | some first => (List.range k.bitCount).map fun i => bits.test (first + i)
  | none => []

end Kind

def Operator.finding (op : Operator) (store : Store) (bits : ConditionBits) : Finding where
  outputs := op.outputs.map fun p =>
    (store.values p.data, store.values p.lower, store.values p.upper)
  bits := op.kind.tests bits
  lines := op.kind.lines.map fun h => h.shown store
  planes := op.kind.planes.map fun h => h.shown store

def Graph.finding (g : Graph) (h : Handle) : Option Finding := do
  let s ← g.slots[h.event]?
  let o ← s.operator? h.index
  return o.operator.finding g.arena.store s.bits

/-- What a named operator shows after some calls. -/
def Analysis.finding (a : Analysis) (calls : List RunCall) (event : Nat) (name : String) :
    Option Finding := do
  (calls.foldl RunCall.apply a.graph).finding (← a.operator? event name)

variable {R B : Ties} {M : Nat → Nat → Prop}

theorem Histogram.Tied.shown_eq {h k : Histogram} (hk : h.Tied R k) {s t : Store}
    (hst : s.Tied R t) : h.shown s = k.shown t := by
  rw [Histogram.shown, Histogram.shown, hst.values_eq hk.data, hk.same, hk.data.length_eq]

theorem PlaneHistogram.Tied.shown_eq {h k : PlaneHistogram} (hk : h.Tied R k) {s t : Store}
    (hst : s.Tied R t) : h.shown s = k.shown t := by
  rw [PlaneHistogram.shown, PlaneHistogram.shown, hst.values_eq hk.data, hk.same,
    hk.data.length_eq]

theorem Kind.Tied.tests_eq {k l : Kind} (h : k.Tied R B l) {b c : ConditionBits}
    (hb : b.Tied B c) : k.tests b = l.tests c := by
  cases h with
  | intervalCondition intervals hi =>
    exact List.map_congr_left fun k hk => hb.test_eq _ _ (hi k (List.mem_range.1 hk))
  | rectangleCondition x y hi => exact congrArg (fun v => [v]) (hb.test_eq _ _ hi)
  | polygonCondition polygon hi => exact congrArg (fun v => [v]) (hb.test_eq _ _ hi)
  | _ => rfl

/-- Tied operators show the same. -/
theorem Operator.Tied.finding_eq {op op' : Operator} (h : op.Tied R B op') {s t : Store}
    (hst : s.Tied R t) {b c : ConditionBits} (hb : b.Tied B c) :
    op.finding s b = op'.finding t c := by
  obtain ⟨inputs, outputs, gate, kind⟩ := op
  obtain ⟨inputs', outputs', gate', kind'⟩ := op'
  obtain ⟨-, ho, -, hk⟩ := h
  dsimp only at ho hk
  have houtputs : (outputs.map fun p => (s.values p.data, s.values p.lower, s.values p.upper)) =
      outputs'.map fun p => (t.values p.data, t.values p.lower, t.values p.upper) :=
    map_eq_of_forall₂ ho fun p q hpq => by
      rw [hst.values_eq hpq.data, hst.values_eq hpq.lower, hst.values_eq hpq.upper]
  have hlines : (kind.lines.map fun h => h.shown s) = kind'.lines.map fun h => h.shown t := by
    cases hk with
    | histograms hh => exact map_eq_of_forall₂ hh fun _ _ hxy => hxy.shown_eq hst
    | _ => rfl
  have hplanes : (kind.planes.map fun h => h.shown s) = kind'.planes.map fun h => h.shown t := by
    cases hk with
    | planeHistogram hh => exact congrArg (fun v => [v]) (hh.shown_eq hst)
    | _ => rfl
  rw [Operator.finding, Operator.finding, houtputs, hk.tests_eq hb, hlines, hplanes]

namespace Slot

/-- No two operators of a slot have the same number. -/
def Single (s : Slot) : Prop := (s.operators.map Numbered.index).Nodup

theorem Single.operator?_eq {s : Slot} (h : s.Single) {n : Numbered RankedOperator}
    (hn : n ∈ s.operators) : s.operator? n.index = some n.node := by
  rw [operator?]
  cases hf : s.operators.find? fun m => m.index = n.index with
  | none =>
    have hnone := List.find?_eq_none.1 hf n hn
    simp at hnone
  | some m =>
    have hindex : m.index = n.index := by simpa using List.find?_some hf
    rw [List.inj_on_of_nodup_map h (List.mem_of_find?_eq_some hf) hn hindex, Option.map_some]

theorem exists_of_operator? {s : Slot} {i : Nat} {o : RankedOperator}
    (h : s.operator? i = some o) : ∃ n ∈ s.operators, n.index = i ∧ n.node = o := by
  rw [operator?, Option.map_eq_some_iff] at h
  obtain ⟨n, hn, rfl⟩ := h
  exact ⟨n, List.mem_of_find?_eq_some hn, by simpa using List.find?_some hn, rfl⟩

theorem single_slot (e : EventPlan) : e.slot.Single := by
  have hperm := (sortBy_perm RankedOperator.rank e.operators).map Numbered.index
  refine hperm.nodup_iff.2 ?_
  rw [List.Nodup, List.pairwise_map]
  exact (pairwise_numbered e.operators).imp fun h => Nat.ne_of_lt h

theorem indices_resting (s : Slot) :
    s.resting.operators.map Numbered.index = s.operators.map Numbered.index := by
  rw [resting, List.map_map]
  rfl

/-- Numbers that belong together name operators that are tied. -/
theorem Tied.operator? {s t : Slot} (h : s.Tied R B M t) (hM : Ties.Unique M) (hs : s.Single)
    (ht : t.Single) {i j : Nat} (hij : M i j) :
    Option.Rel (fun o p : RankedOperator => o.operator.Tied R B p.operator) (s.operator? i)
      (t.operator? j) := by
  obtain ⟨ms, hpaired, hperm⟩ := h.operators
  cases hsi : s.operator? i with
  | some o =>
    obtain ⟨n, hn, rfl, rfl⟩ := exists_of_operator? hsi
    obtain ⟨m, hm, hnm⟩ := exists_of_mem_right hpaired.flip hn
    have hindex : m.index = j := (hM hnm.index hij).1 rfl
    rw [← hindex, ht.operator?_eq (hperm.mem_iff.1 hm)]
    exact .some hnm.operator
  | none =>
    cases htj : t.operator? j with
    | none => exact .none
    | some p =>
      obtain ⟨m, hm, rfl, rfl⟩ := exists_of_operator? htj
      obtain ⟨n, hn, hnm⟩ := exists_of_mem_right hpaired (hperm.mem_iff.2 hm)
      rw [← (hM hnm.index hij).2 rfl, hs.operator?_eq hn] at hsi
      cases hsi

end Slot

namespace Graph

theorem single_run {g : Graph} (h : ∀ s ∈ g.slots, s.Single) (calls : List RunCall) :
    ∀ s ∈ (calls.foldl RunCall.apply g).slots, s.Single := by
  intro s hs
  have hslots : (calls.foldl RunCall.apply g).slots.map Slot.resting = g.slots.map Slot.resting :=
    congrArg Layout.slots (layout_run g calls)
  have hmem : s.resting ∈ g.slots.map Slot.resting := hslots ▸ List.mem_map_of_mem hs
  obtain ⟨t, ht, hts⟩ := List.mem_map.1 hmem
  rw [Slot.Single, ← s.indices_resting, ← hts, t.indices_resting]
  exact h t ht

variable {E : Nat → Ties} {N : Nat → Nat → Nat → Prop} {g h : Graph}

theorem Tied.finding_eq (h' : g.Tied R E N h) (hN : ∀ i, Ties.Unique (N i))
    (hg : ∀ s ∈ g.slots, s.Single) (hh : ∀ s ∈ h.slots, s.Single) {x y : Handle}
    (hevent : x.event = y.event) (hindex : N x.event x.index y.index) :
    g.finding x = h.finding y := by
  have hslots := h'.slots x.event
  rw [finding, finding, ← hevent]
  cases hs : g.slots[x.event]? with
  | none =>
    rw [hs] at hslots
    cases ht : h.slots[x.event]? with
    | none => rfl
    | some t =>
      rw [ht] at hslots
      cases hslots
  | some s =>
    rw [hs] at hslots
    cases ht : h.slots[x.event]? with
    | none =>
      rw [ht] at hslots
      cases hslots
    | some t =>
      rw [ht] at hslots
      obtain hst | _ := hslots
      have hops := hst.operator? (hN _) (hg s (List.mem_of_getElem? hs))
        (hh t (List.mem_of_getElem? ht)) hindex
      simp only [Option.bind_eq_bind, Option.bind_some]
      match s.operator? x.index, t.operator? y.index, hops with
      | _, _, .none => rfl
      | _, _, .some hop => exact congrArg some (hop.finding_eq h'.store hst.bits)

theorem isSome_finding {x : Handle} : (g.finding x).isSome = true ↔
    ∃ s, g.slots[x.event]? = some s ∧ x.index ∈ s.operators.map Numbered.index := by
  rw [finding]
  cases hs : g.slots[x.event]? with
  | none => simp
  | some s =>
    simp only [Option.bind_eq_bind, Option.bind_some, Option.some.injEq, exists_eq_left']
    cases hop : s.operator? x.index with
    | none =>
      refine iff_of_false nofun fun hmem => ?_
      obtain ⟨n, hn, hindex⟩ := List.mem_map.1 hmem
      rw [Slot.operator?, Option.map_eq_none_iff] at hop
      exact List.find?_eq_none.1 hop n hn (decide_eq_true hindex)
    | some o =>
      obtain ⟨n, hn, hindex, -⟩ := Slot.exists_of_operator? hop
      exact iff_of_true rfl (hindex ▸ List.mem_map_of_mem hn)

/-- A run does not lose an operator. -/
theorem isSome_finding_run {x : Handle} (h : (g.finding x).isSome = true) (calls : List RunCall) :
    ((calls.foldl RunCall.apply g).finding x).isSome = true := by
  obtain ⟨s, hs, hmem⟩ := isSome_finding.1 h
  have hslots : (calls.foldl RunCall.apply g).slots.map Slot.resting = g.slots.map Slot.resting :=
    congrArg Layout.slots (layout_run g calls)
  have hsome : (calls.foldl RunCall.apply g).slots[x.event]?.map Slot.resting = some s.resting := by
    rw [← List.getElem?_map, hslots, List.getElem?_map, hs, Option.map_some]
  obtain ⟨t, ht, hts⟩ := Option.map_eq_some_iff.1 hsome
  rw [isSome_finding]
  exact ⟨t, ht, by rwa [← t.indices_resting, hts, s.indices_resting]⟩

/-- What is read off a graph does not tell twins apart. -/
theorem Alike.finding_eq {gb gd : Graph} (h : Alike gb gd) (x : Handle) :
    gb.finding x = gd.finding x := by
  have hvalues : gb.arena.store.values = gd.arena.store.values :=
    funext fun p => h.twins.store.values_eq fun _ _ => trivial
  have hop : ∀ (op : Operator) (b : ConditionBits),
      op.finding gb.arena.store b = op.finding gd.arena.store b := by
    intro op b
    simp only [Operator.finding, Histogram.shown, PlaneHistogram.shown, hvalues]
  simp only [finding, h.slots, hop]

end Graph

/-- Counterparts of all elements, in the order of these. -/
theorem exists_perm_of_counterparts {α β : Type} {S : α → β → Prop} {xs : List α} {ys : List β}
    (hlen : xs.length = ys.length) (hS : ∀ x ∈ xs, ∃ y ∈ ys, S x y)
    (hxs : xs.Pairwise fun x x' => ∀ y, S x y → ¬ S x' y) :
    ∃ ms, List.Forall₂ S xs ms ∧ ms.Perm ys := by
  induction xs generalizing ys with
  | nil =>
    obtain rfl := List.length_eq_zero_iff.1 hlen.symm
    exact ⟨[], .nil, .refl _⟩
  | cons x xs ih =>
    obtain ⟨hx, hrest⟩ := List.forall_mem_cons.1 hS
    obtain ⟨hfirst, hxs⟩ := List.pairwise_cons.1 hxs
    obtain ⟨y, hy, hxy⟩ := hx
    obtain ⟨before, behind, rfl⟩ := List.append_of_mem hy
    have hlen : xs.length = (before ++ behind).length := by
      simp only [List.length_cons, List.length_append] at hlen ⊢
      omega
    have hS : ∀ x' ∈ xs, ∃ y' ∈ before ++ behind, S x' y' := by
      intro x' hx'
      obtain ⟨y', hy', hxy'⟩ := hrest x' hx'
      rcases List.mem_append.1 hy' with hy' | hy'
      · exact ⟨y', List.mem_append_left _ hy', hxy'⟩
      · rcases List.mem_cons.1 hy' with rfl | hy'
        · exact absurd hxy' (hfirst x' hx' _ hxy)
        · exact ⟨y', List.mem_append_right _ hy', hxy'⟩
    obtain ⟨ms, hms, hperm⟩ := ih hlen hS hxs
    exact ⟨y :: ms, .cons hxy hms, (hperm.cons y).trans List.perm_middle.symm⟩

theorem mem_numbered {α : Type} {nodes : List α} {n : Numbered α} :
    n ∈ numbered nodes ↔ nodes[n.index]? = some n.node := by
  rw [numbered, List.mem_map]
  constructor
  · rintro ⟨x, hx, rfl⟩
    exact List.mem_zipIdx_iff_getElem?.1 hx
  · exact fun h => ⟨(n.node, n.index), List.mem_zipIdx_iff_getElem?.2 h, rfl⟩

namespace Draft

variable {T : Place → Ties} {d e : Draft}

/-- The graph of a draft that increments bins at once. -/
def direct (d : Draft) (volume : Volume) : Graph :=
  ({ d.plan with strategy := .direct } : Plan).build volume

theorem Steady.idling (h : d.Steady) (volume : Volume) : (d.direct volume).Idling := by
  have hold : Holding False [] [] { d with plan := { d.plan with strategy := .direct } } :=
    ⟨⟨h.holding.sound.placed, h.holding.sound.fits, h.holding.sound.room,
      h.holding.sound.pipes_even, h.holding.sound.sources, h.holding.sound.operators,
      h.holding.sound.events⟩, h.holding.named, h.holding.fed, h.holding.count,
      h.holding.faithful, h.holding.exact⟩
  exact ⟨hold.contained volume, rfl⟩

def analysis (d : Draft) (volume : Volume) : Analysis :=
  ⟨d.plan.build volume, d.sources, d.operators⟩

theorem alike_direct (d : Draft) (volume : Volume) :
    Graph.Alike (d.plan.build volume) (d.direct volume) :=
  ⟨⟨.refl _ _, rfl, Graph.queue_build d.plan volume, rfl, rfl⟩, rfl⟩

theorem Matched.slot (h : Matched T d e) (i : Nat) :
    (d.eventAt i).slot.Tied (T .cell) (T (.bit i)) (T (.node i)) (e.eventAt i).slot := by
  have hanchored : ∀ j, (d.eventAt i).slot.sourceCells j → T .cell j j := by
    rintro j ⟨n, hn, p, hp, hj⟩
    exact h.mirrors.anchored i n.node (mem_of_mem_sortBy hn) p hp j hj
  have hpairs : ∀ n ∈ numbered (d.eventAt i).operators, ∃ m ∈ numbered (e.eventAt i).operators,
      Slot.Paired (T .cell) (T (.bit i)) (T (.node i)) n m := by
    intro n hn
    obtain ⟨k, p, hnk, hp, hop⟩ := h.mirrors.nodes i n.index n.node (mem_numbered.1 hn)
    exact ⟨⟨k, p⟩, mem_numbered.2 hp, hnk, hop⟩
  have hone : (numbered (d.eventAt i).operators).Pairwise fun n n' => ∀ m,
      Slot.Paired (T .cell) (T (.bit i)) (T (.node i)) n m →
        ¬ Slot.Paired (T .cell) (T (.bit i)) (T (.node i)) n' m := by
    refine (pairwise_numbered _).imp fun hlt m hn hn' => ?_
    exact Nat.ne_of_lt hlt ((h.mirrors.unique _ hn.index hn'.index).2 rfl)
  have hcount : (d.eventAt i).operators.length = (e.eventAt i).operators.length := h.count i
  have hlen : (numbered (d.eventAt i).operators).length =
      (numbered (e.eventAt i).operators).length := by
    simpa [numbered] using hcount
  obtain ⟨ms, hms, hperm⟩ := exists_perm_of_counterparts hlen hpairs hone
  obtain ⟨ms', hms', hperm'⟩ := List.perm_comp_forall₂
    (sortBy_perm RankedOperator.rank (d.eventAt i).operators) hms
  have hsorted := sortBy_perm RankedOperator.rank (e.eventAt i).operators
  refine ⟨congrArg (sortBy Source.moduleIndex) (h.mirrors.sources i), hanchored,
    ⟨ms', hms', hperm'.trans (hperm.trans hsorted.symm)⟩, h.mirrors.unique _, fun j k hjk => ?_,
    fun j k hjk => ?_, fun j k _ => ?_⟩
  · exact Nat.lt_of_lt_of_eq (h.mirrors.left _ j k hjk) (List.length_replicate).symm
  · exact Nat.lt_of_lt_of_eq (h.mirrors.right _ j k hjk) (List.length_replicate).symm
  · exact (ConditionBits.test_new _ j).trans (ConditionBits.test_new _ k).symm

theorem Matched.tied (h : Matched T d e) (v v' : Volume) :
    (d.direct v).Tied (T .cell) (fun i => T (.bit i)) (fun i => T (.node i)) (e.direct v') := by
  have harena := h.mirrors.arena (.refl e) h.left h.right
  have hstore : d.plan.arena.store.Tied (T .cell) e.plan.arena.store :=
    ⟨h.mirrors.unique .cell, h.mirrors.slots,
      fun i j hij => harena.store.left i j ⟨hij, h.mirrors.right .cell i j hij⟩,
      fun i j hij => harena.store.right i j ⟨hij, h.mirrors.right .cell i j hij⟩,
      h.mirrors.read, h.left.small⟩
  have hslots : ∀ (d : Draft) (v : Volume) (i : Nat),
      (d.direct v).slots[i]? = d.plan.events[i]?.map EventPlan.slot := fun d v i =>
    List.getElem?_map ..
  refine ⟨hstore, h.left.idling v, h.right.idling v', rfl, rfl, fun i => ?_⟩
  rw [hslots, hslots]
  by_cases hi : i < Plan.maxEvents
  · rw [h.left.within hi, h.right.within hi]
    exact .some (h.slot i)
  · rw [List.getElem?_eq_none (h.left.holding.count ▸ Nat.not_lt.1 hi),
      List.getElem?_eq_none (h.right.holding.count ▸ Nat.not_lt.1 hi)]
    exact .none

/-- Graphs that were built from matching drafts show the same under the same names. -/
theorem Matched.finding_eq (h : Matched T d e) (v v' : Volume) (calls : List RunCall) (event : Nat)
    (name : String) :
    (d.analysis v).finding calls event name = (e.analysis v').finding calls event name := by
  have hdirect : ∀ (d : Draft) (_ : d.Steady) (v : Volume) (x : Handle),
      (calls.foldl RunCall.apply (d.plan.build v)).finding x =
        (calls.foldl RunCall.apply (d.direct v)).finding x := fun d hd v x =>
    ((d.alike_direct v).run (fun s hs => ((hd.idling v).contained.slots s hs).order.laid)
      calls).finding_eq x
  have hsingle : ∀ (d : Draft) (v : Volume), ∀ s ∈ (d.direct v).slots, s.Single := by
    intro d v s hs
    obtain ⟨p, -, rfl⟩ := List.mem_map.1 hs
    exact Slot.single_slot p
  rw [Analysis.finding, Analysis.finding, Analysis.operator?, Analysis.operator?, analysis,
    analysis]
  dsimp only
  cases hx : d.operators.lookup ⟨event, name⟩ with
  | none =>
    cases hy : e.operators.lookup ⟨event, name⟩ with
    | none => rfl
    | some y =>
      have hsome := (h.tags ⟨event, name⟩).2 (by rw [hy]; rfl)
      rw [hx] at hsome
      cases hsome
  | some x =>
    obtain ⟨y, hy, hevent, hevent', hindex⟩ := h.mirrors.tags _ x hx
    rw [hy]
    simp only [Option.bind_eq_bind, Option.bind_some]
    rw [hdirect d h.left, hdirect e h.right]
    refine ((h.tied v v').run calls).finding_eq (fun i => h.mirrors.unique _)
      (Graph.single_run (hsingle d v) calls) (Graph.single_run (hsingle e v') calls)
      (hevent.trans hevent'.symm) ?_
    rw [hevent]
    exact hindex

end Draft

theorem Config.build_of_ok {c : Config} {seed : UInt64} {v : Volume} {d : Draft}
    (h : Draft.addEvents c (Draft.new c seed) = (.ok (), d)) :
    c.build seed v = .ok (d.analysis v) := by
  have hrun : (Draft.addEvents c).run (Draft.new c seed) = (.ok (), d) := h
  rw [Config.build, hrun]
  rfl

theorem Config.build_of_error {c : Config} {seed : UInt64} {v : Volume} {d : Draft} {x : Error}
    (h : Draft.addEvents c (Draft.new c seed) = (.error x, d)) : c.build seed v = .error x := by
  have hrun : (Draft.addEvents c).run (Draft.new c seed) = (.error x, d) := h
  rw [Config.build, hrun]

theorem Config.build_eq_ok {c : Config} {seed : UInt64} {v : Volume} {a : Analysis} :
    c.build seed v = .ok a ↔
      ∃ d, Draft.addEvents c (Draft.new c seed) = (.ok (), d) ∧ a = d.analysis v := by
  constructor
  · intro hbuild
    rcases hadd : Draft.addEvents c (Draft.new c seed) with ⟨x | u, d⟩
    · rw [build_of_error hadd] at hbuild
      cases hbuild
    · rw [build_of_ok hadd] at hbuild
      exact ⟨d, rfl, (Except.ok.inj hbuild).symm⟩
  · rintro ⟨d, hd, rfl⟩
    exact build_of_ok hd

/-- If the other analysis was built, then this one is built from a draft that matches. -/
theorem Config.Reordered.exists_matched {c c' : Config} (h : c.Reordered c') (hfits : c'.GatesFit)
    {seed : UInt64} {e : Draft} (he : Draft.addEvents c' (Draft.new c' seed) = (.ok (), e))
    {v : Volume} (hroom : ∀ x, c.build seed v = .error x → ¬ x.OutOfMemory) :
    ∃ d T, Draft.addEvents c (Draft.new c seed) = (.ok (), d) ∧ Draft.Matched T d e := by
  rcases h.addEvents hfits he with hok | ⟨x, d, hfail, hx⟩
  · exact hok
  · exact absurd hx (hroom x (Config.build_of_error hfail))

/-- Every operator that is configured shows something. -/
theorem Config.isSome_finding {c : Config} (hfits : c.GatesFit) {seed : UInt64} {v : Volume}
    {a : Analysis} (ha : c.build seed v = .ok a) (calls : List RunCall) :
    ∀ e ∈ c.events, ∀ o ∈ e.operators, (a.finding calls e.index o.name).isSome = true := by
  intro e he o ho
  have hroom : ∀ x, c.build seed v = .error x → ¬ x.OutOfMemory := fun x hx => by
    rw [ha] at hx
    cases hx
  obtain ⟨d, hd, rfl⟩ := Config.build_eq_ok.1 ha
  obtain ⟨d', T, hd', hmatched⟩ := (Config.Reordered.refl c).exists_matched hfits hd hroom
  obtain ⟨-, rfl⟩ := Prod.mk.inj (hd.symm.trans hd')
  obtain ⟨s, -, hs, hops⟩ := Draft.exists_matched_sources hd
  obtain ⟨h, hh⟩ := Option.isSome_iff_exists.1 ((hs.left.isSome_lookup hops).2 e he o ho)
  obtain ⟨k, -, hevent, -, hindex⟩ := hmatched.mirrors.tags _ h hh
  rw [Analysis.finding, Analysis.operator?, Draft.analysis]
  dsimp only
  rw [hh]
  simp only [Option.bind_eq_bind, Option.bind_some]
  refine Graph.isSome_finding_run (Graph.isSome_finding.2 ?_) calls
  have hlt : h.index < (d.eventAt e.index).operators.length := hmatched.mirrors.left _ _ _ hindex
  have hin : d.plan.events[e.index]? = some (d.eventAt e.index) := by
    refine (d.eventAt_mem_or_empty e.index).resolve_right fun hempty => ?_
    rw [hempty] at hlt
    cases hlt
  refine ⟨(d.eventAt e.index).slot, by rw [hevent]; exact Plan.slots_build hin v, ?_⟩
  have hmem : ⟨h.index, _⟩ ∈ numbered (d.eventAt e.index).operators :=
    mem_numbered.2 (List.getElem?_eq_getElem hlt)
  exact List.mem_map_of_mem (f := Numbered.index)
    ((sortBy_perm RankedOperator.rank _).symm.subset hmem)

namespace Config

def count : OperatorConfig := ⟨"count", none, .aggregate "hits" .multiplicity none none⟩

def lower : OperatorConfig := ⟨"first", none, .intervalCondition "count" [(.one, .two)]⟩

def upper : OperatorConfig :=
  ⟨"second", none, .intervalCondition "count" [(.two, ⟨0x4008000000000000⟩)]⟩

def passed (gate : String) : OperatorConfig :=
  ⟨"passed", some gate, .rangeFilter "hits" .zero .two false⟩

/-- Hits of one module, with two conditions on their number and a filter that one of them gates. -/
def gatedHits (operators : List OperatorConfig) : Config where
  arenaCapacity := 4096
  strategy := .batched
  seed := some 1
  events := [⟨0, [⟨"hits", 3, none, true, false, .word "AADD" .perHit 1⟩], operators⟩]

end Config

end Readout
