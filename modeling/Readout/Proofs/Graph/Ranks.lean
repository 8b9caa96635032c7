import Mathlib.Data.List.Pairwise
import Readout.Graph.Plan
import Readout.Proofs.Operator.Layout

/-!
# Ranks

If no two outputs of an event overlap, then the node that writes a slot is the one whose output is
the last to start at the slot or before it. So the rank of a new operator is above the ranks of all
operators before it that write one of its inputs or its gate bit. Bits are handed out one behind
the other: an operator is gated only by operators that were added before it.
-/
namespace Readout

theorem pairwise_of_splits {α : Type} {R : α → α → Prop} {xs : List α}
    (h : ∀ before x behind, xs = before ++ x :: behind → ∀ y ∈ behind, R x y) :
    xs.Pairwise R := by
  induction xs with
  | nil => exact .nil
  | cons x xs ih =>
    refine List.pairwise_cons.2 ⟨fun y hy => h [] x xs rfl y hy, ih fun before y behind hs => ?_⟩
    exact h (x :: before) y behind (congrArg (x :: ·) hs)

theorem pairwise_concat {α : Type} {R : α → α → Prop} {xs : List α} {x : α} (h : xs.Pairwise R)
    (hx : ∀ y ∈ xs, R y x) : (xs ++ [x]).Pairwise R :=
  List.pairwise_append.2 ⟨h, List.pairwise_singleton R x, fun y hy =>
    List.forall_mem_singleton.2 (hx y hy)⟩

/-- What holds of each element behind those in front of it, and of one more behind them all. -/
theorem forall_split_concat {α : Type} {P : List α → α → Prop} {xs : List α} {x : α}
    (h : ∀ before y behind, xs = before ++ y :: behind → P before y) (hx : P xs x) :
    ∀ before y behind, xs ++ [x] = before ++ y :: behind → P before y := by
  intro before y behind hsplit
  rcases List.eq_nil_or_concat behind with rfl | ⟨behind, last, rfl⟩
  · obtain ⟨rfl, hlast⟩ := List.append_inj' hsplit rfl
    obtain rfl := List.singleton_inj.1 hlast
    exact hx
  · rw [List.concat_eq_append, ← List.cons_append, ← List.append_assoc] at hsplit
    exact h before y behind (List.append_inj' hsplit rfl).1

/-- No slot belongs to the outputs of both producers. -/
def Producer.Apart (p q : Producer) : Prop :=
  ∀ i, p.start ≤ i ∧ i < p.stop → ¬ (q.start ≤ i ∧ i < q.stop)

instance : Std.Symm Producer.Apart := ⟨fun _ _ h i hq hp => h i hp hq⟩

theorem Operator.ownsBit_withFirstBit {op : Operator} {first bit : Nat}
    (h : ({ op with kind := op.kind.withFirstBit first } : Operator).OwnsBit bit) :
    first ≤ bit ∧ bit < first + op.kind.bitCount := by
  obtain ⟨lowest, hf, hl, hu⟩ := h
  dsimp only at hf hl hu
  rw [Kind.bitCount_withFirstBit] at hu
  rw [Kind.firstBit?_withFirstBit (by omega)] at hf
  obtain rfl : first = lowest := Option.some.inj hf
  exact ⟨hl, hu⟩

namespace EventPlan

def rankedOutputs (e : EventPlan) : List (Pipe × Nat) :=
  (e.sources.flatMap fun s => s.outputs.map fun p => (p, 0)) ++
    e.operators.flatMap fun o => o.operator.outputs.map fun p => (p, o.rank)

def outputs (e : EventPlan) : List Pipe :=
  (e.sources.flatMap Source.outputs) ++ e.operators.flatMap fun o => o.operator.outputs

theorem outputs_eq (e : EventPlan) : e.outputs = e.rankedOutputs.map Prod.fst := by
  simp [outputs, rankedOutputs, List.map_flatMap, Function.comp_def]

theorem producers_eq (e : EventPlan) :
    e.producers = (e.rankedOutputs.filter fun o => o.1.length ≠ 0).map fun o =>
      ⟨o.1.data.offset, o.1.data.stop, o.2⟩ := by
  simp [producers, producersOf, rankedOutputs, List.map_flatMap, List.filter_flatMap,
    List.filter_map, Function.comp_def]

def nearer (offset : Nat) (best : Option Producer) (p : Producer) : Option Producer :=
  if p.start ≤ offset then
    match best with
    | some b => if b.start ≤ p.start then some p else some b
    | none => some p
  else best

theorem nearest?_eq_foldl (offset : Nat) (ps : List Producer) :
    nearest? offset ps = ps.foldl (nearer offset) none := rfl

theorem nearer_of_first {offset : Nat} {p q : Producer} {best : Option Producer}
    (hq : q.start ≤ offset → q = p ∨ q.start < p.start)
    (hbest : ∀ r ∈ best, r = p ∨ r.start < p.start) :
    ∀ r ∈ nearer offset best q, r = p ∨ r.start < p.start := by
  intro r hr
  unfold nearer at hr
  split at hr
  · next hqs =>
    cases best with
    | none =>
      obtain rfl : q = r := Option.some.inj hr
      exact hq hqs
    | some b =>
      simp only at hr
      split at hr
      · obtain rfl : q = r := Option.some.inj hr
        exact hq hqs
      · exact hbest r hr
  · exact hbest r hr

theorem nearer_kept {offset : Nat} {p q : Producer}
    (hq : q.start ≤ offset → q = p ∨ q.start < p.start) :
    nearer offset (some p) q = some p := by
  unfold nearer
  split
  · next hqs =>
    rcases hq hqs with rfl | hlt
    · exact if_pos (Nat.le_refl q.start)
    · exact if_neg (Nat.not_le.2 hlt)
  · rfl

theorem nearer_found {offset : Nat} {p : Producer} {best : Option Producer}
    (hs : p.start ≤ offset) (hbest : ∀ r ∈ best, r = p ∨ r.start < p.start) :
    nearer offset best p = some p := by
  unfold nearer
  rw [if_pos hs]
  cases best with
  | none => rfl
  | some b =>
    rcases hbest b rfl with rfl | hlt
    · exact if_pos (Nat.le_refl b.start)
    · exact if_pos (Nat.le_of_lt hlt)

/-- The producer is kept once it was found, since all others start before it. -/
theorem foldl_nearer {offset : Nat} {p : Producer} (hs : p.start ≤ offset) {ps : List Producer}
    (hmax : ∀ q ∈ ps, q.start ≤ offset → q = p ∨ q.start < p.start) {best : Option Producer}
    (hbest : ∀ q ∈ best, q = p ∨ q.start < p.start) (hp : best = some p ∨ p ∈ ps) :
    ps.foldl (nearer offset) best = some p := by
  induction ps generalizing best with
  | nil => simpa using hp
  | cons q ps ih =>
    rw [List.foldl_cons]
    have hq := hmax q List.mem_cons_self
    refine ih (fun r hr => hmax r (List.mem_cons_of_mem q hr)) (nearer_of_first hq hbest) ?_
    rcases hp with rfl | hp
    · exact Or.inl (nearer_kept hq)
    · rcases List.mem_cons.1 hp with rfl | hp
      · exact Or.inl (nearer_found hs hbest)
      · exact Or.inr hp

theorem nearest?_eq_some {offset : Nat} {p : Producer} {ps : List Producer} (hp : p ∈ ps)
    (hs : p.start ≤ offset)
    (hmax : ∀ q ∈ ps, q.start ≤ offset → q = p ∨ q.start < p.start) :
    nearest? offset ps = some p := by
  rw [nearest?_eq_foldl]
  exact foldl_nearer hs hmax (by simp) (Or.inr hp)

theorem producerRank_eq {e : EventPlan} (he : (e.outputs.map Pipe.data).Pairwise Span.Apart)
    {p v : Pipe} {rank : Nat} (hp : (p, rank) ∈ e.rankedOutputs) (hv : v.data.offset ∈ p.data) :
    e.producerRank v = rank := by
  let P : Producer := ⟨p.data.offset, p.data.stop, rank⟩
  have hin := Span.mem_iff.1 hv
  have hpos : p.length ≠ 0 := by
    rw [Pipe.length]
    omega
  have hmem : P ∈ e.producers := by
    rw [producers_eq]
    exact List.mem_map.2 ⟨(p, rank), List.mem_filter.2 ⟨hp, by simpa using hpos⟩, rfl⟩
  have hapart : e.producers.Pairwise Producer.Apart := by
    rw [outputs_eq, List.map_map, List.pairwise_map] at he
    rw [producers_eq, List.pairwise_map]
    exact (he.filter _).imp fun h i hq hr => h i hq hr
  have hnear : nearest? v.data.offset e.producers = some P := by
    refine nearest?_eq_some hmem hin.1 fun q hq hqs => ?_
    by_cases hqP : q = P
    · exact Or.inl hqP
    · right
      have hne := hapart.forall hq hmem hqP
      have hq1 : q.start < q.stop := by
        rw [producers_eq, List.mem_map] at hq
        obtain ⟨o, ho, rfl⟩ := hq
        have hl : o.1.data.length ≠ 0 := of_decide_eq_true (List.mem_filter.1 ho).2
        simp only [Span.stop]
        omega
      -- otherwise the first slot of one of both would belong to the other one
      by_contra hlt
      refine hne q.start ⟨Nat.le_refl _, hq1⟩ ⟨Nat.not_lt.1 hlt, ?_⟩
      simp only [P, Span.stop]
      omega
  rw [producerRank, hnear]
  exact if_pos hin.2

theorem foldl_max_le_iff {xs : List Nat} {start bound : Nat} :
    xs.foldl max start ≤ bound ↔ start ≤ bound ∧ ∀ x ∈ xs, x ≤ bound := by
  induction xs generalizing start with
  | nil => simp
  | cons y ys ih =>
    rw [List.foldl_cons, ih, Nat.max_le, List.forall_mem_cons, and_assoc]

theorem le_foldl_max {xs : List Nat} {x : Nat} (start : Nat) (h : x ∈ xs) :
    x ≤ xs.foldl max start :=
  (foldl_max_le_iff.1 (Nat.le_refl _)).2 x h

theorem producerRank_le_inputRank {e : EventPlan} {inputs : List Pipe} {v : Pipe}
    (h : v ∈ inputs) : e.producerRank v ≤ e.inputRank inputs :=
  le_foldl_max 0 (List.mem_map_of_mem h)

theorem inputRank_lt {e : EventPlan} {op : Operator} {rank : Nat} (h : e.rankFor op = .ok rank) :
    e.inputRank op.inputs < rank := by
  rw [rankFor] at h
  split at h
  · obtain rfl : e.inputRank op.inputs + 1 = rank := Except.ok.inj h
    exact Nat.lt_succ_self _
  · split at h
    · next r _ =>
      obtain rfl : max (e.inputRank op.inputs) r + 1 = rank := Except.ok.inj h
      omega
    · cases h

theorem bitRank_lt {e : EventPlan} {op : Operator} {rank bit : Nat}
    (h : e.rankFor op = .ok rank) (hg : op.gate = some bit) :
    ∃ r, e.bitRanks[bit]? = some r ∧ r < rank := by
  rw [rankFor, hg] at h
  dsimp only at h
  split at h
  · next r hr =>
    obtain rfl : max (e.inputRank op.inputs) r + 1 = rank := Except.ok.inj h
    exact ⟨r, hr, by omega⟩
  · cases h

theorem gate_lt {e : EventPlan} {op : Operator} {rank bit : Nat}
    (h : e.rankFor op = .ok rank) (hg : op.gate = some bit) : bit < e.bitCount := by
  obtain ⟨r, hr, -⟩ := bitRank_lt h hg
  exact (List.getElem?_eq_some_iff.1 hr).1

theorem addSource_eq_ok {e e' : EventPlan} {s : Source} (h : e.addSource s = .ok e') :
    e' = { e with sources := e.sources ++ [s] } := by
  rw [addSource] at h
  split at h
  · cases h
  · exact (Except.ok.inj h).symm

theorem addOperator_eq_ok {e e' : EventPlan} {op : Operator} (h : e.addOperator op = .ok e') :
    ∃ rank, e.rankFor op = .ok rank ∧
      e' = { e with operators := e.operators ++
        [⟨{ op with kind := op.kind.withFirstBit e.bitCount }, rank⟩] } := by
  rw [addOperator] at h
  split at h
  · cases h
  · cases hr : e.rankFor op with
    | error c =>
      rw [hr] at h
      cases h
    | ok rank =>
      rw [hr] at h
      exact ⟨rank, rfl, (Except.ok.inj h).symm⟩

/-- What the order in which operators were added says about their ranks and bits. -/
structure Ordered (e : EventPlan) : Prop where
  ranks : e.operators.Pairwise fun a b => a.operator.Precedes b.operator → a.rank < b.rank
  gates : e.operators.Pairwise fun a b => ¬ b.operator.Gates a.operator
  bits : e.operators.Pairwise fun a b => a.operator.BitsApart b.operator
  owners : ∀ o ∈ e.operators, ∀ bit, o.operator.OwnsBit bit → e.bitRanks[bit]? = some o.rank
  gated : ∀ o ∈ e.operators, ∀ bit ∈ o.operator.gate, bit < e.bitCount
  selfless : ∀ o ∈ e.operators, ¬ o.operator.Gates o.operator
  covered : ∀ bit < e.bitCount, ∃ o ∈ e.operators, o.operator.OwnsBit bit

theorem ordered_empty : empty.Ordered := by
  constructor <;> simp [empty, bitCount, bitRanks]

theorem Ordered.addSource {e e' : EventPlan} {s : Source} (he : e.Ordered)
    (h : e.addSource s = .ok e') : e'.Ordered := by
  rw [addSource_eq_ok h]
  exact ⟨he.ranks, he.gates, he.bits, he.owners, he.gated, he.selfless, he.covered⟩

theorem Ordered.lt_bitCount {e : EventPlan} (he : e.Ordered) {o : RankedOperator}
    (ho : o ∈ e.operators) {bit : Nat} (hb : o.operator.OwnsBit bit) : bit < e.bitCount :=
  (List.getElem?_eq_some_iff.1 (he.owners o ho bit hb)).1

theorem Ordered.rank_lt {e : EventPlan} {op : Operator} {rank : Nat} {a : RankedOperator}
    (he : e.Ordered) (hd : (e.outputs.map Pipe.data).Pairwise Span.Apart) (ha : a ∈ e.operators)
    (hr : e.rankFor op = .ok rank) (h : a.operator.Precedes op) : a.rank < rank := by
  rcases h with ⟨p, hp, v, hv, -, hin⟩ | ⟨bit, hg, ho⟩
  · have hpr : (p, a.rank) ∈ e.rankedOutputs :=
      List.mem_append_right _ (List.mem_flatMap.2 ⟨a, ha, List.mem_map_of_mem hp⟩)
    have hle := e.producerRank_le_inputRank hv
    rw [producerRank_eq hd hpr hin] at hle
    exact Nat.lt_of_le_of_lt hle (inputRank_lt hr)
  · obtain ⟨r, hb, hlt⟩ := bitRank_lt hr hg
    rw [he.owners a ha bit ho] at hb
    obtain rfl : a.rank = r := Option.some.inj hb
    exact hlt

theorem bitRanks_append (e : EventPlan) (op : Operator) (bit rank : Nat) :
    ({ e with operators := e.operators ++
      [⟨{ op with kind := op.kind.withFirstBit bit }, rank⟩] } : EventPlan).bitRanks =
        e.bitRanks ++ List.replicate op.kind.bitCount rank := by
  simp [bitRanks]

theorem bitCount_append (e : EventPlan) (op : Operator) (bit rank : Nat) :
    ({ e with operators := e.operators ++
      [⟨{ op with kind := op.kind.withFirstBit bit }, rank⟩] } : EventPlan).bitCount =
        e.bitCount + op.kind.bitCount := by
  simp [bitCount, bitRanks_append]

theorem Ordered.addOperator {e e' : EventPlan} {op : Operator} (he : e.Ordered)
    (hd : (e.outputs.map Pipe.data).Pairwise Span.Apart) (h : e.addOperator op = .ok e') :
    e'.Ordered := by
  obtain ⟨rank, hr, rfl⟩ := addOperator_eq_ok h
  refine ⟨?_, ?_, ?_, ?_, ?_, ?_, ?_⟩
  · exact pairwise_concat he.ranks fun a ha => he.rank_lt hd ha hr
  · refine pairwise_concat he.gates fun a ha ⟨bit, hg, ho⟩ => ?_
    have hlt := he.gated a ha bit hg
    have hle := (Operator.ownsBit_withFirstBit ho).1
    omega
  · refine pairwise_concat he.bits fun a ha bit hoa hob => ?_
    have hlt := he.lt_bitCount ha hoa
    have hle := (Operator.ownsBit_withFirstBit hob).1
    omega
  · rw [bitRanks_append, List.forall_mem_append, List.forall_mem_singleton]
    refine ⟨fun o ho bit hb => ?_, fun bit hb => ?_⟩
    · rw [List.getElem?_append_left (he.lt_bitCount ho hb)]
      exact he.owners o ho bit hb
    · obtain ⟨hl, hu⟩ := Operator.ownsBit_withFirstBit hb
      rw [List.getElem?_append_right hl, List.getElem?_replicate]
      refine if_pos ?_
      rw [← bitCount]
      omega
  · rw [bitCount_append, List.forall_mem_append, List.forall_mem_singleton]
    refine ⟨fun o ho bit hb => ?_, fun bit hb => ?_⟩
    · exact Nat.lt_of_lt_of_le (he.gated o ho bit hb) (Nat.le_add_right _ _)
    · exact Nat.lt_of_lt_of_le (gate_lt hr hb) (Nat.le_add_right _ _)
  · rw [List.forall_mem_append, List.forall_mem_singleton]
    refine ⟨he.selfless, fun ⟨bit, hg, hb⟩ => ?_⟩
    have hlt := gate_lt hr hg
    have hle := (Operator.ownsBit_withFirstBit hb).1
    omega
  · intro bit hb
    rw [bitCount_append] at hb
    by_cases hlt : bit < e.bitCount
    · obtain ⟨o, ho, hown⟩ := he.covered bit hlt
      exact ⟨o, List.mem_append_left _ ho, hown⟩
    · have hpos : e.bitCount ≤ bit := Nat.not_lt.1 hlt
      refine ⟨_, List.mem_append_right _ List.mem_cons_self, e.bitCount, ?_, hpos, ?_⟩
      · exact Kind.firstBit?_withFirstBit (by omega) _
      · simpa using hb

theorem Ordered.lt_of_gates {e : EventPlan} (he : e.Ordered) {a b : RankedOperator}
    (ha : a ∈ e.operators) (hb : b ∈ e.operators) (hg : a.operator.Gates b.operator) :
    a.rank < b.rank := by
  have hall : ∀ a ∈ e.operators, ∀ b ∈ e.operators, a.operator.Gates b.operator →
      a.rank < b.rank :=
    List.Pairwise.forall_of_forall_of_flip (fun a ha hg => absurd hg (he.selfless a ha))
      (he.ranks.imp fun h hg => h (Or.inr hg)) (he.gates.imp fun h hg => absurd hg h)
  exact hall a ha b hb hg

/-- Each operator reads outputs of its own event that were there before it, or elements of them. -/
def Fed (e : EventPlan) : Prop :=
  ∀ before o behind, e.operators = before ++ o :: behind → ∀ v ∈ o.operator.inputs,
    ∃ p ∈ e.sources.flatMap Source.outputs ++ before.flatMap fun o => o.operator.outputs,
      v ∈ p.views

theorem fed_empty : empty.Fed := fun before o behind h => by simp [empty] at h

theorem Fed.addSource {e e' : EventPlan} {s : Source} (he : e.Fed) (h : e.addSource s = .ok e') :
    e'.Fed := by
  rw [addSource_eq_ok h]
  intro before o behind hsplit v hv
  obtain ⟨p, hp, hpv⟩ := he before o behind hsplit v hv
  refine ⟨p, ?_, hpv⟩
  rw [List.flatMap_append, List.append_assoc]
  rcases List.mem_append.1 hp with hp | hp
  · exact List.mem_append_left _ hp
  · exact List.mem_append_right _ (List.mem_append_right _ hp)

theorem Fed.addOperator {e e' : EventPlan} {op : Operator} (he : e.Fed)
    (h : e.addOperator op = .ok e') (hin : ∀ v ∈ op.inputs, ∃ p ∈ e.outputs, v ∈ p.views) :
    e'.Fed := by
  obtain ⟨rank, -, rfl⟩ := addOperator_eq_ok h
  exact forall_split_concat he hin

/-- No operator was added in front of one that feeds it. -/
theorem Fed.pairwise {e : EventPlan} (he : e.Fed)
    (hd : (e.outputs.map Pipe.data).Pairwise Span.Apart) :
    e.operators.Pairwise fun a b => ¬ b.operator.Feeds a.operator := by
  refine pairwise_of_splits fun before a behind hsplit b hb ⟨p, hp, v, hv, hl, hin⟩ => ?_
  obtain ⟨q, hq, hqv⟩ := he before a behind hsplit v hv
  have hstart : v.data.offset ∈ q.data := (Pipe.inside_of_mem_views hqv).data _
    ⟨Nat.le_refl _, by rw [Pipe.length] at hl; omega⟩
  rw [outputs, hsplit, List.flatMap_append, List.flatMap_cons, ← List.append_assoc,
    List.map_append] at hd
  refine (List.pairwise_append.1 hd).2.2 q.data (List.mem_map_of_mem hq) p.data ?_ _ hstart hin
  refine List.mem_map_of_mem (List.mem_append_right _ (List.mem_flatMap.2 ⟨b, hb, hp⟩))

end EventPlan

end Readout
