import Readout.Proofs.Config.Findings
import Readout.Proofs.Pattern.Floating

/-!
# Words in pieces

What a group still waits for is kept between two calls. So a source whose patterns are pinned to no
position makes the same of a word list whether it comes at once or in pieces (`feed_append`). The
patterns of an analysis are of this kind, those of packed words apart.
-/
namespace Readout

namespace GroupDecoder

theorem step_floating {d : GroupDecoder} (h : d.group.Floating) (word : UInt32) (i j : Nat) :
    d.step word i = d.step word j := by
  rw [step, step, h.offer_eq word i j]

theorem decodeFrom_floating {d : GroupDecoder} (h : d.group.Floating) (i j : Nat)
    (words : List UInt32) : decodeFrom i words d = decodeFrom j words d := by
  induction words generalizing d i j with
  | nil => rfl
  | cons w words ih =>
    have hblank := congrArg GroupDecoder.group (d.blank_step w j)
    have hrest := ih (h.of_blank hblank) (i + 1) (j + 1)
    simp only [decodeFrom, step_floating h w i j, hrest]

end GroupDecoder

theorem WordDecoder.decodeFrom_floating {d : WordDecoder} (h : d.pattern.Floating) (i j : Nat)
    (words : List UInt32) : d.decodeFrom i words = d.decodeFrom j words := by
  induction words generalizing i j with
  | nil => rfl
  | cons w words ih => simp only [decodeFrom, hit?, h.accepts_eq w i j, ih (i + 1) (j + 1)]

theorem WordDecoder.decodeFrom_append (d : WordDecoder) (i : Nat) (us vs : List UInt32) :
    d.decodeFrom i (us ++ vs) = d.decodeFrom i us ++ d.decodeFrom (i + us.length) vs := by
  induction us generalizing i with
  | nil => rfl
  | cons u us ih =>
    have hnext : i + (us.length + 1) = i + 1 + us.length := by omega
    simp only [List.cons_append, decodeFrom, ih, List.length_cons, hnext, List.append_assoc]

namespace Decoder

/-- The decoder takes single words, wherever they stand. -/
def Floating : Decoder → Prop
  | group d => d.group.Floating
  | packed _ => False
  | word d => d.pattern.Floating

variable {d d' : Decoder}

theorem Floating.of_blank (h : d.Floating) (hb : d'.blank = d.blank) : d'.Floating := by
  cases d with
  | group g =>
    cases d' with
    | group g' => exact Group.Floating.of_blank h (congrArg GroupDecoder.group (group.inj hb))
    | _ => cases hb
  | packed p => exact h.elim
  | word w =>
    have hsame : d' = .word w := eq_of_blank (by simp) hb
    rwa [hsame]

/-- What the first piece leaves behind is all that the second one has to know. -/
theorem Floating.decode_append (h : d.Floating) (us vs : List UInt32) :
    let (hs, d', n) := d.decode us
    let (ks, d'', m) := d'.decode vs
    d.decode (us ++ vs) = (hs ++ ks, d'', n + m) := by
  cases d with
  | group g =>
    have hg : (GroupDecoder.decodeFrom 0 us g).2.group.Floating :=
      Group.Floating.of_blank h (congrArg GroupDecoder.group (g.blank_decodeFrom 0 us))
    have hvs := GroupDecoder.decodeFrom_floating hg 0 us.length vs
    simp only [GroupDecoder.decodeFrom_eq] at hvs
    simp only [decode, GroupDecoder.decodeFrom_eq, List.zipIdx_append, Nat.zero_add,
      GroupDecoder.run_append, List.length_append, hvs]
  | packed p => exact h.elim
  | word w =>
    have hvs := WordDecoder.decodeFrom_floating (d := w) h 0 us.length vs
    simp only [decode, hvs, WordDecoder.decodeFrom_append, Nat.zero_add, List.length_append]

end Decoder

namespace Source

theorem recordAll_append (s : Source) (st : Store) (hs ks : List Hit) :
    s.recordAll st (hs ++ ks) =
      (s.recordAll st hs).1.recordAll (s.recordAll st hs).2 ks := by
  induction hs generalizing s st with
  | nil => rfl
  | cons h hs ih => exact ih _ _

/-- Recording looks at no trace that a run leaves in the decoder. -/
theorem recordAll_decoder {s : Source} {d : Decoder} (hd : d.blank = s.decoder.blank) (st : Store)
    (hs : List Hit) : { s with decoder := d }.recordAll st hs =
      ({ (s.recordAll st hs).1 with decoder := d }, (s.recordAll st hs).2) := by
  have hrecord : ∀ (s : Source) (st : Store) (h : Hit), d.blank = s.decoder.blank →
      { s with decoder := d }.record st h =
        ({ (s.record st h).1 with decoder := d }, (s.record st h).2) := by
    intro s st h hd
    have hplaces : places { s with decoder := d } h.address = s.places h.address := by
      cases hs : s.decoder <;> cases d <;> simp_all [places, Decoder.blank]
    have hcounts : countsAll { s with decoder := d } = s.countsAll := by
      cases hs : s.decoder <;> cases d <;> simp_all [countsAll, Decoder.blank]
    simp only [record, hplaces, hcounts]
    split <;> rfl
  induction hs generalizing s st with
  | nil => rfl
  | cons h hs ih =>
    have hnext : d.blank = (s.record st h).1.decoder.blank := by rw [decoder_record, hd]
    rw [recordAll_cons, recordAll_cons, hrecord s st h hd, ih hnext]

theorem feed_append_of_floating {s : Source} (h : s.decoder.Floating) (st : Store)
    (us vs : List UInt32) :
    let first := s.feed st us
    let second := first.1.feed first.2.1 vs
    s.feed st (us ++ vs) = (second.1, second.2.1, first.2.2 + second.2.2) := by
  have hdecode := h.decode_append us vs
  have hus := s.decoder.blank_decode us
  generalize hu : s.decoder.decode us = u at hdecode hus
  obtain ⟨hs, d, n⟩ := u
  have hvs := d.blank_decode vs
  dsimp only at hdecode hus
  generalize hv : d.decode vs = v at hdecode hvs
  obtain ⟨ks, d', m⟩ := v
  dsimp only at hdecode hvs
  have hstart := recordAll_decoder (s := s) hus st hs
  have hend := recordAll_decoder (s := s) (hvs.trans hus) st (hs ++ ks)
  have hfirst : s.feed st us =
      ({ (s.recordAll st hs).1 with decoder := d }, (s.recordAll st hs).2, n) := by
    simp only [feed, hu, hstart]
  have hsame : d'.blank = (s.recordAll st hs).1.decoder.blank := by
    rw [decoder_recordAll, hvs, hus]
  have hmore := recordAll_decoder hsame (s.recordAll st hs).2 ks
  rw [hfirst]
  simp only [feed, hdecode, hv, hend, recordAll_append, hmore]

end Source

/-- Only the patterns of packed words are pinned to positions. -/
def Decoder.Unpinned (d : Decoder) : Prop := d.Floating ∨ ∃ p, d = packed p

theorem Decoder.Unpinned.of_blank {d d' : Decoder} (h : d.Unpinned) (hb : d'.blank = d.blank) :
    d'.Unpinned := by
  rcases h with h | ⟨p, rfl⟩
  · exact .inl (h.of_blank hb)
  · exact .inr ⟨p, eq_of_blank (by simp) hb⟩

namespace Draft

open Drafting

def Unpinned (d : Draft) : Prop := ∀ e ∈ d.plan.events, ∀ s ∈ e.sources, s.decoder.Unpinned

theorem leads_unpinned_make {r : SourceRecipe} (h : r.decoder.Unpinned) :
    Leads Unpinned (alloc r.make) fun s d => d.Unpinned ∧ s.decoder.Unpinned :=
  leads_alloc fun d hd s a hs => by
    have hmade := r.takes_make.result d.plan.arena s (by rw [hs])
    exact ⟨hd, hmade.decoder_eq ▸ h⟩

theorem leads_unpinned_makeSource (s : SourceConfig) (o : SourceOptions) :
    Leads Unpinned (makeSource s o) fun src d => d.Unpinned ∧ src.decoder.Unpinned := by
  rw [makeSource]
  split
  · refine .read (Reads.ofExcept _) fun g => .assuming fun hg => ?_
    exact leads_unpinned_make (r := .group g _ o)
      (.inl (Group.floating_parse (exists_of_mapError_eq_ok hg)))
  · refine .read (Reads.ofExcept _) fun p => .assuming fun _ => ?_
    exact leads_unpinned_make (r := .packed p _ s.lowRepetition o) (.inr ⟨_, rfl⟩)
  · refine .read (Reads.ofExcept _) fun p => .assuming fun hp => ?_
    exact leads_unpinned_make (r := .word p _ _ o)
      (.inl (Pattern.floating_parse (exists_of_mapError_eq_ok hp)))

theorem leads_unpinned_addSource (event : Nat) (s : SourceConfig) :
    Leads Unpinned (addSource event s) fun _ => Unpinned := by
  have hseed : Leads Unpinned (seedFor s) fun _ => Unpinned := by
    rw [seedFor]
    split
    · exact .pure fun _ => id
    · refine .read .get fun d => Leads.bind (Q := fun _ => Unpinned) (Leads.modify
        (f := fun _ => { d with nextSeed := d.nextSeed + 1 }) fun d' hd => ?_)
        fun _ => .pure fun _ => id
      obtain ⟨hd, rfl⟩ := hd
      exact hd
  have hplan : ∀ src : Source, Leads (fun d => d.Unpinned ∧ src.decoder.Unpinned)
      (planning (Plan.addSource event src)) fun _ => Unpinned := fun src =>
    leads_planning fun d h n p hp => by
      obtain ⟨hd, hsrc⟩ := h
      obtain ⟨e, e', he, ha, rfl⟩ := Plan.addSource_ok hp
      intro f hf
      rcases List.mem_or_eq_of_mem_set hf with hf | rfl
      · exact hd f hf
      · simpa [EventPlan.addSource_eq_ok ha, or_imp, forall_and, hsrc] using
          hd e (List.mem_of_getElem? he)
  refine .read (reads_claim event s.name) fun _ => ?_
  refine (hseed.weaken (fun _ => And.left) fun _ _ => id).bind fun seed => ?_
  refine (leads_unpinned_makeSource s _).bind fun src => (hplan src).bind fun h => ?_
  exact Leads.bind (Q := fun _ => Unpinned) (Leads.modify fun _ => id) fun _ =>
    Leads.modify fun _ => id

theorem leads_unpinned_addEventSources (cs : List EventConfig) :
    Leads Unpinned (addEventSources cs) fun _ => Unpinned := by
  have hsources : ∀ (event : Nat) (ss : List SourceConfig),
      Leads Unpinned (addSources event ss) fun _ => Unpinned := by
    intro event ss
    induction ss with
    | nil => exact .pure fun _ => id
    | cons s ss ih => exact (leads_unpinned_addSource event s).inContext.bind fun _ => ih
  induction cs with
  | nil => exact .pure fun _ => id
  | cons c cs ih =>
    have hrest := (hsources c.index c.sources).bind fun _ => ih
    rw [addEventSources]
    split
    · exact Leads.fail.bind (Q := fun _ => Unpinned) fun _ => hrest
    · exact hrest

variable {d e : Draft}

/-- No operator brings a source along. -/
theorem Unpinned.addOperator {event : Nat} {o : OperatorConfig} (hd : d.Unpinned)
    (h : Draft.addOperator event o d = (.ok (), e)) : e.Unpinned := by
  obtain ⟨r, op, a, g, p, p', hstages, rfl⟩ := exists_stages h
  obtain ⟨rank, -, hp'⟩ := EventPlan.addOperator_eq_ok hstages.seat
  intro f hf
  rcases List.mem_or_eq_of_mem_set hf with hf | rfl
  · exact hd f hf
  · rw [hp']
    exact hd p (List.mem_of_getElem? hstages.event)

theorem leads_unpinned_addEventOperators (cs : List EventConfig) :
    Leads Unpinned (addEventOperators cs) fun _ => Unpinned := by
  induction cs with
  | nil => exact .pure fun _ => id
  | cons c cs ih =>
    refine Leads.bind (Q := fun _ => Unpinned) (fun d hd _ e h => ?_) fun _ => ih
    obtain ⟨os, hadds, -⟩ := AddsAll.of_addOperators h
    clear h
    induction hadds with
    | nil d => exact hd
    | cons _ ha _ ih => exact ih (hd.addOperator ha)

theorem unpinned_new (c : Config) (seed : UInt64) : Unpinned (new c seed) := by
  intro e he s hs
  rw [List.eq_of_mem_replicate he] at hs
  cases hs

theorem unpinned_addEvents {c : Config} {seed : UInt64}
    (h : addEvents c (new c seed) = (.ok (), d)) : d.Unpinned :=
  ((leads_unpinned_addEventSources c.events).bind fun _ =>
    leads_unpinned_addEventOperators c.events) _ (unpinned_new c seed) _ _ h

end Draft

def Graph.Unpinned (g : Graph) : Prop :=
  ∀ s ∈ g.slots, ∀ n ∈ s.sources, n.node.decoder.Unpinned

namespace Graph

variable {g g' : Graph}

theorem Unpinned.of_layout (h : g.Unpinned) (hl : g'.layout = g.layout) : g'.Unpinned := by
  have hslots : g'.slots.map Slot.resting = g.slots.map Slot.resting :=
    congrArg Graph.Layout.slots hl
  intro s hs n hn
  obtain ⟨t, ht, hts⟩ := List.mem_map.1 (hslots ▸ List.mem_map_of_mem hs :
    s.resting ∈ g.slots.map Slot.resting)
  have hmem : n.map Source.resting ∈ s.resting.sources := List.mem_map_of_mem hn
  rw [← hts] at hmem
  obtain ⟨m, hm, hmn⟩ := List.mem_map.1 hmem
  have hblank := congrArg (fun n => n.node.decoder) hmn
  exact (h t ht m hm).of_blank hblank.symm

theorem Unpinned.run (h : g.Unpinned) (calls : List RunCall) :
    (calls.foldl RunCall.apply g).Unpinned := h.of_layout (layout_run g calls)

end Graph

theorem Draft.Unpinned.build {d : Draft} (h : d.Unpinned) (volume : Volume) :
    (d.plan.build volume).Unpinned := by
  intro s hs n hn
  obtain ⟨e, he, rfl⟩ := List.mem_map.1 hs
  exact h e he n.node (mem_of_mem_sortBy hn)

/-- It makes no difference where the words of a module are cut, whatever a source has seen before,
if no pattern is pinned; and in an analysis none is, but for those of packed words. -/
theorem Source.feed_append :
    (∀ (s : Source) (st : Store) (us vs : List UInt32), s.decoder.Floating →
      let first := s.feed st us
      let second := first.1.feed first.2.1 vs
      s.feed st (us ++ vs) = (second.1, second.2.1, first.2.2 + second.2.2)) ∧
    ∀ (c : Config) (seed : UInt64) (volume : Volume) (a : Analysis),
      c.build seed volume = .ok a → ∀ calls : List RunCall,
        ∀ s ∈ (calls.foldl RunCall.apply a.graph).slots, ∀ n ∈ s.sources,
          n.node.decoder.Floating ∨ ∃ p, n.node.decoder = .packed p := by
  refine ⟨fun s st us vs h => s.feed_append_of_floating h st us vs, ?_⟩
  intro c seed volume a hbuild calls
  obtain ⟨d, hd, rfl⟩ := Config.build_eq_ok.1 hbuild
  exact ((Draft.unpinned_addEvents hd).build volume).run calls

/-- Pairs of marked words, told apart by their marks. -/
def Source.ofMarked : Source where
  outputs := [⟨⟨0, 4⟩, ⟨4, 4⟩, ⟨8, 4⟩⟩]
  hitCounts := ⟨12, 4⟩
  moduleIndex := 0
  decoder := .group ⟨⟨[.ofPattern (marked .zero), .ofPattern (marked .one)]⟩, 1, 0⟩
  dither := .ofSeed 1
  plain := false

/-- The first word of a pair comes in the first piece and the other one in the second. -/
theorem Source.feed_append_marked :
    let st := (ofMarked.beginEvent (Store.new 16)).2
    let first := ofMarked.feed st [2]
    let second := first.1.feed first.2.1 [0, 5]
    ofMarked.decoder.Floating ∧
    ofMarked.feed st ([2] ++ [0, 5]) = (second.1, second.2.1, first.2.2 + second.2.2) ∧
    first.2.1.get ⟨12, 4⟩ 1 = Value.zero ∧ second.2.1.get ⟨12, 4⟩ 1 = Value.one ∧
    ∃ a, Config.pickedElement.build 0 .fresh = .ok a ∧
      let calls := [RunCall.beginRun, .during (.beginEvent 0), .during (.feed 0 0 [3, 7])]
      ∀ s ∈ (calls.foldl RunCall.apply a.graph).slots, ∀ n ∈ s.sources,
        n.node.decoder.Floating ∨ ∃ p, n.node.decoder = .packed p := by
  obtain ⟨hsplit, hbuilt⟩ := feed_append
  have hfloating : ofMarked.decoder.Floating := by
    change ∀ p ∈ [marked .zero, marked .one], p.Floating
    decide +kernel
  have hok : (Config.pickedElement.build 0 .fresh).toOption.isSome = true := by decide +kernel
  refine ⟨hfloating, hsplit ofMarked _ [2] [0, 5] hfloating, by decide +kernel,
    by decide +kernel, ?_⟩
  cases h : Config.pickedElement.build 0 .fresh with
  | error e =>
    rw [h] at hok
    cases hok
  | ok a => exact ⟨a, rfl, hbuilt _ 0 .fresh a h _⟩

end Readout
