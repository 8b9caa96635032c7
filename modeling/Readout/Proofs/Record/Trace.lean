import Readout.Proofs.Record.Stream

/-!
# The calls of a replay

A replay ends every event that it begins before it begins another one, and feeds the words of a
record while the event of the record is open (`Bracketed`). What one record adds to the calls and
to the counts is stated once (`carries_calls`); a stream adds what its records add together
(`carries_trace`), and the end of a stream closes the event that is still open.
-/
namespace Readout

/-- Calls that stand between the beginning and the end of an event. -/
def Call.Inside (event : Nat) : Call → Prop
  | feed e _ _ => e = event
  | tick => True
  | beginEvent _ | endEvent _ => False

/-- Ticks and whole events, each with its own words between its beginning and its end. -/
inductive Bracketed : List Call → Prop
  | nil : Bracketed []
  | tick {cs : List Call} : Bracketed cs → Bracketed (.tick :: cs)
  | event {e : Nat} {inner cs : List Call} : (∀ c ∈ inner, c.Inside e) → Bracketed cs →
      Bracketed (.beginEvent e :: (inner ++ .endEvent e :: cs))

namespace Call

/-- The open event behind a call. No call begins an event inside of another one, or feeds or ends
an event that is not the open one. -/
def step? : Option Nat → Call → Option (Option Nat)
  | none, beginEvent e => some (some e)
  | some e, feed e' _ _ => if e' = e then some (some e) else none
  | some e, endEvent e' => if e' = e then some none else none
  | opened, tick => some opened
  | _, _ => none

def isEnd : Call → Bool
  | endEvent _ => true
  | _ => false

def fed? : Call → Option (Nat × Nat × List UInt32)
  | feed e m words => some (e, m, words)
  | _ => none

end Call

theorem bracketed_of_steps {cs : List Call} : ∀ {opened : Option Nat},
    cs.foldlM Call.step? opened = some none →
    match opened with
    | none => Bracketed cs
    | some e => ∃ inner rest, (∀ c ∈ inner, c.Inside e) ∧ Bracketed rest ∧
        cs = inner ++ .endEvent e :: rest := by
  -- with an event open, the rest splits at the call that ends it, so both cases go together
  induction cs with
  | nil =>
    intro opened h
    cases opened with
    | none => exact .nil
    | some e => simp at h
  | cons c cs ih =>
    intro opened h
    rw [List.foldlM_cons, Option.bind_eq_bind, Option.bind_eq_some_iff] at h
    obtain ⟨next, hstep, hrest⟩ := h
    have hcs := ih hrest
    cases opened with
    | none =>
      cases c with
      | beginEvent e =>
        obtain rfl := Option.some.inj hstep
        obtain ⟨inner, rest, hinner, hbracketed, rfl⟩ := hcs
        exact .event hinner hbracketed
      | tick =>
        obtain rfl := Option.some.inj hstep
        exact .tick hcs
      | feed e m words => simp [Call.step?] at hstep
      | endEvent e => simp [Call.step?] at hstep
    | some e =>
      cases c with
      | beginEvent e' => simp [Call.step?] at hstep
      | tick =>
        obtain rfl := Option.some.inj hstep
        obtain ⟨inner, rest, hinner, hbracketed, rfl⟩ := hcs
        exact ⟨.tick :: inner, rest, by simpa [Call.Inside] using hinner, hbracketed, rfl⟩
      | feed e' m words =>
        rw [Call.step?, Option.ite_none_right_eq_some] at hstep
        obtain ⟨rfl, hnext⟩ := hstep
        obtain rfl := Option.some.inj hnext
        obtain ⟨inner, rest, hinner, hbracketed, rfl⟩ := hcs
        exact ⟨.feed e' m words :: inner, rest, by simpa [Call.Inside] using hinner, hbracketed,
          rfl⟩
      | endEvent e' =>
        rw [Call.step?, Option.ite_none_right_eq_some] at hstep
        obtain ⟨rfl, hnext⟩ := hstep
        obtain rfl := Option.some.inj hnext
        exact ⟨[], cs, by simp, hcs, rfl⟩

namespace Record

def dataOf (rs : List Record) : List Record := rs.filter fun r => r.moduleIndex ≠ Replay.closing

def fed (r : Record) : Nat × Nat × List UInt32 := (r.event.toNat, r.moduleIndex.toNat, r.words)

end Record

namespace Replay

/-- What calls for so many records make of a progress: the records among them that carry data and
the ticks that waited are taken over one by one, and everything is counted. -/
structure Carries (p : Progress) (count : Nat) (data : List Record) (waiting : Nat)
    (cs : List Call) (q : Progress) : Prop where
  steps : cs.foldlM Call.step? p.opened = some q.opened
  fed : cs.filterMap Call.fed? = data.map Record.fed
  ticked : cs.count .tick = waiting
  records : q.stats.records = p.stats.records + count
  events : q.stats.events = p.stats.events + cs.countP Call.isEnd
  words : q.stats.words = p.stats.words + total (data.map fun r => r.words.length)
  ticks : q.stats.ticks = p.stats.ticks + waiting

variable {p q s : Progress} {r : Record}

theorem Carries.append {count count' waiting waiting' : Nat} {data data' : List Record}
    {cs cs' : List Call} (h : Carries p count data waiting cs q)
    (h' : Carries q count' data' waiting' cs' s) :
    Carries p (count + count') (data ++ data') (waiting + waiting') (cs ++ cs') s where
  steps := by
    rw [List.foldlM_append, h.steps]
    exact h'.steps
  fed := by rw [List.filterMap_append, List.map_append, h.fed, h'.fed]
  ticked := by rw [List.count_append, h.ticked, h'.ticked]
  records := by rw [h'.records, h.records, Nat.add_assoc]
  events := by rw [h'.events, h.events, List.countP_append, Nat.add_assoc]
  words := by rw [h'.words, h.words, List.map_append, total_append, Nat.add_assoc]
  ticks := by rw [h'.ticks, h.ticks, Nat.add_assoc]

theorem carries_nil (p : Progress) : Carries p 0 [] 0 [] p :=
  ⟨rfl, rfl, rfl, rfl, rfl, rfl, rfl⟩

theorem carries_advance (p : Progress) (waiting : Nat) :
    Carries p 1 [] waiting (List.replicate waiting .tick) (p.advance waiting) where
  steps := by
    have hticks : ∀ n, (List.replicate n Call.tick).foldlM Call.step? p.opened = some p.opened := by
      intro n
      induction n with
      | zero => rfl
      | succ n ih =>
        rw [List.replicate_succ, List.foldlM_cons]
        cases ho : p.opened <;> simpa [Call.step?, ho] using ih
    exact hticks waiting
  fed := by
    rw [List.filterMap_replicate]
    rfl
  ticked := List.count_replicate_self
  records := rfl
  events := by
    rw [List.countP_replicate]
    rfl
  words := rfl
  ticks := rfl

theorem carries_interrupt (p : Progress) (event : Nat) :
    Carries p 0 [] 0 (interrupt p event).1 (interrupt p event).2 ∧
      ((interrupt p event).2.opened = none ∨ (interrupt p event).2.opened = some event) := by
  rw [interrupt]
  cases ho : p.opened with
  | none => exact ⟨carries_nil p, .inl ho⟩
  | some e =>
    by_cases h : e = event
    · rw [h] at ho
      simpa [h, ho] using carries_nil p
    · simp only [if_neg h]
      exact ⟨⟨by simp [ho, Call.step?, Progress.close], rfl, rfl, rfl, rfl, rfl, rfl⟩, .inl rfl⟩

/-- The calls for a record behind those that end another event. -/
def enter (p : Progress) (r : Record) : List Call × Progress :=
  let event := r.event.toNat
  let begun := if p.opened.isNone then [Call.beginEvent event] else []
  if r.moduleIndex = closing then (begun ++ [.endEvent event], p.close)
  else (begun ++ [.feed event r.moduleIndex.toNat r.words], p.keep event r.words.length)

theorem calls_eq (p : Progress) (waiting : Nat) (r : Record) :
    calls p waiting r =
      let (ended, q) := interrupt (p.advance waiting) r.event.toNat
      (List.replicate waiting .tick ++ (ended ++ (enter q r).1), (enter q r).2) := by
  by_cases h : r.moduleIndex = closing <;> simp [calls, enter, h]

theorem carries_enter (h : p.opened = none ∨ p.opened = some r.event.toNat) :
    Carries p 0 (Record.dataOf [r]) 0 (enter p r).1 (enter p r).2 := by
  by_cases hclosing : r.moduleIndex = closing
  · rcases h with ho | ho <;>
      constructor <;>
      simp [enter, hclosing, ho, Call.step?, Progress.close, Record.dataOf, Call.fed?, Call.isEnd,
        total]
  · rcases h with ho | ho <;>
      constructor <;>
      simp [enter, hclosing, ho, Call.step?, Progress.keep, Record.dataOf, List.filterMap_cons,
        Call.fed?, Call.isEnd, total, Record.fed]

theorem carries_calls (p : Progress) (waiting : Nat) (r : Record) :
    Carries p 1 (Record.dataOf [r]) waiting (calls p waiting r).1 (calls p waiting r).2 := by
  obtain ⟨hinterrupt, hopened⟩ := carries_interrupt (p.advance waiting) r.event.toNat
  rw [calls_eq]
  simpa using (carries_advance p waiting).append (hinterrupt.append (carries_enter hopened))

theorem carries_trace (p : Progress) (arrivals : List Nat) (rs : List Record) :
    Carries p rs.length (Record.dataOf rs) (total (arrivals.take rs.length))
      (trace p arrivals rs).1 (trace p arrivals rs).2 := by
  induction rs generalizing p arrivals with
  | nil => exact carries_nil p
  | cons r rs ih =>
    have hdata : Record.dataOf (r :: rs) = Record.dataOf [r] ++ Record.dataOf rs :=
      List.filter_append [r] rs
    have hwaiting : total (arrivals.take (rs.length + 1)) =
        arrivals.headD 0 + total ((arrivals.drop 1).take rs.length) := by
      cases arrivals with
      | nil => simp [total]
      | cons n arrivals => rfl
    rw [List.length_cons, hdata, hwaiting, Nat.add_comm rs.length 1]
    exact (carries_calls p (arrivals.headD 0) r).append
      (ih (calls p (arrivals.headD 0) r).2 (arrivals.drop 1))

theorem carries_finish (p : Progress) :
    Carries p 0 [] 0 (finish p).1 ⟨none, (finish p).2⟩ := by
  rw [finish]
  cases ho : p.opened with
  | none => exact ⟨by simp [ho], rfl, rfl, rfl, rfl, rfl, rfl⟩
  | some e => exact ⟨by simp [ho, Call.step?], rfl, rfl, rfl, rfl, rfl, rfl⟩

/-- The calls and counts that a whole stream of records stands for. -/
def whole (arrivals : List Nat) (rs : List Record) : List Call × ReplayStats :=
  let (cs, p) := trace start arrivals rs
  (cs ++ (finish p).1, (finish p).2)

theorem carries_whole (arrivals : List Nat) (rs : List Record) :
    Carries start rs.length (Record.dataOf rs) (total (arrivals.take rs.length))
      (whole arrivals rs).1 ⟨none, (whole arrivals rs).2⟩ := by
  simpa [whole] using (carries_trace start arrivals rs).append (carries_finish _)

theorem plan_encodeAll (arrivals : List Nat) {rs : List Record} (hrs : ∀ r ∈ rs, r.Whole) :
    plan arrivals (Record.encodeAll rs) =
      ((whole arrivals rs).1, .ok (whole arrivals rs).2) := by
  have hnone : ([] : List UInt8).length < 4 := by decide
  obtain ⟨buffer, h⟩ := Record.decode_encodeAll hrs hnone
  rw [List.append_nil] at h
  simp [plan, h, whole]

end Replay

/-- A stream of records is replayed as a sequence of whole events that takes over every record
with data and every tick that waited, and that is counted as it is. -/
theorem Graph.replay_bracketed (g : Graph) (arrivals : List Nat) {rs : List Record}
    (hrs : ∀ r ∈ rs, r.Whole) :
    ∃ cs stats, Replay.plan arrivals (Record.encodeAll rs) = (cs, .ok stats) ∧
      g.replay arrivals (Record.encodeAll rs) = (.ok stats, cs.foldl Call.apply g) ∧
      Bracketed cs ∧
      cs.filterMap Call.fed? = (Record.dataOf rs).map Record.fed ∧
      cs.count .tick = total (arrivals.take rs.length) ∧
      stats = {
        records := rs.length
        events := cs.countP Call.isEnd
        words := total ((Record.dataOf rs).map fun r => r.words.length)
        ticks := cs.count .tick } := by
  have hplan := Replay.plan_encodeAll arrivals hrs
  have hcarries := Replay.carries_whole arrivals rs
  obtain ⟨cs, stats, hwhole⟩ : ∃ cs stats, Replay.whole arrivals rs = (cs, stats) := ⟨_, _, rfl⟩
  rw [hwhole] at hplan hcarries
  refine ⟨cs, stats, hplan, by simp [Graph.replay, hplan, Except.mapError],
    bracketed_of_steps hcarries.steps, hcarries.fed, hcarries.ticked, ?_⟩
  have hrecords := hcarries.records
  have hevents := hcarries.events
  have hwords := hcarries.words
  have hticks := hcarries.ticks
  rw [← hcarries.ticked] at hticks
  simp only [Replay.start, Nat.zero_add] at hrecords hevents hwords hticks
  cases stats
  simp_all

/-- Records that close an event which another one opened, or none, and a last event that no record
closes. -/
def Record.unpaired : List Record :=
  [⟨3, 0, [1, 2]⟩, ⟨5, Replay.closing, []⟩, ⟨7, Replay.closing, [9]⟩, ⟨7, 1, []⟩]

theorem Graph.replay_bracketed_unpaired :
    (∀ r ∈ Record.unpaired, r.Whole) ∧ ∀ g : Graph, ∃ cs stats,
      g.replay [0, 2, 1] (Record.encodeAll Record.unpaired) = (.ok stats, cs.foldl Call.apply g) ∧
      Bracketed cs ∧ stats = ⟨4, 4, 2, 3⟩ ∧
      cs = [.beginEvent 3, .feed 3 0 [1, 2], .tick, .tick, .endEvent 3, .beginEvent 5, .endEvent 5,
        .tick, .beginEvent 7, .endEvent 7, .beginEvent 7, .feed 7 1 [], .endEvent 7] := by
  have hwhole : ∀ r ∈ Record.unpaired, r.Whole := by decide
  refine ⟨hwhole, fun g => ?_⟩
  obtain ⟨cs, stats, hplan, hreplay, hbracketed, -⟩ := g.replay_bracketed [0, 2, 1] hwhole
  have hcalls := Replay.plan_encodeAll [0, 2, 1] hwhole
  cases hplan.symm.trans hcalls
  exact ⟨_, _, hreplay, hbracketed, rfl, rfl⟩

end Readout
