import Readout.Graph.Run
import Readout.Record.Basic

/-!
# Replay

A recorded stream is replayed as a sequence of calls on a graph. A record of another event ends
the open event, the first record of an event begins it, and a record of the closing module ends
it. Ticks that wait are taken in front of the next record. An event that is still open when the
stream ends is ended too, unless the stream breaks off inside of a record.
-/
namespace Readout

inductive Call
  | beginEvent (event : Nat)
  | feed (event moduleIndex : Nat) (words : List UInt32)
  | endEvent (event : Nat)
  | tick
deriving DecidableEq

def Call.apply (g : Graph) : Call → Graph
  | beginEvent e => g.beginEvent e
  | feed e m words => g.feed e m words
  | endEvent e => g.endEvent e
  | tick => g.tick

structure ReplayStats where
  records : Nat
  events : Nat
  words : Nat
  ticks : Nat
deriving DecidableEq, Inhabited

namespace Replay

/-- The module of records that close an event. -/
def closing : UInt32 := 0xffffffff

/-- A replay under way: the event that is open and what was counted so far. -/
structure Progress where
  opened : Option Nat
  stats : ReplayStats
deriving DecidableEq

def start : Progress := ⟨none, ⟨0, 0, 0, 0⟩⟩

namespace Progress

/-- An event has ended. -/
def close (p : Progress) : Progress :=
  ⟨none, { p.stats with events := p.stats.events + 1 }⟩

/-- The event has taken so many words. -/
def keep (p : Progress) (event words : Nat) : Progress :=
  ⟨some event, { p.stats with words := p.stats.words + words }⟩

/-- A record has been read, and the ticks that waited in front of it were taken. -/
def advance (p : Progress) (waiting : Nat) : Progress :=
  { p with
    stats := { p.stats with records := p.stats.records + 1, ticks := p.stats.ticks + waiting } }

end Progress

/-- Ends the open event if a record belongs to another one. -/
def interrupt (p : Progress) (event : Nat) : List Call × Progress :=
  match p.opened with
  | some e => if e = event then ([], p) else ([.endEvent e], p.close)
  | none => ([], p)

/-- The calls for one record, in front of which so many ticks wait, and the progress after it. -/
def calls (p : Progress) (waiting : Nat) (r : Record) : List Call × Progress :=
  let event := r.event.toNat
  let (ended, p) := interrupt (p.advance waiting) event
  let begun := if p.opened.isNone then [Call.beginEvent event] else []
  let before := List.replicate waiting Call.tick ++ ended ++ begun
  if r.moduleIndex = closing then (before ++ [.endEvent event], p.close)
  else
    (before ++ [.feed event r.moduleIndex.toNat r.words], p.keep event r.words.length)

/-- The calls for all records, with the numbers of ticks that wait in front of each. -/
def trace (p : Progress) : List Nat → List Record → List Call × Progress
  | _, [] => ([], p)
  | arrivals, r :: rest =>
    let (now, p) := calls p (arrivals.headD 0) r
    let (later, p) := trace p (arrivals.drop 1) rest
    (now ++ later, p)

/-- Ends the event that is still open. -/
def finish (p : Progress) : List Call × ReplayStats :=
  match p.opened with
  | some e => ([.endEvent e], p.close.stats)
  | none => ([], p.stats)

/-- The calls that a stream stands for, and the counts or the part it breaks off in. -/
def plan (arrivals : List Nat) (bytes : List UInt8) :
    List Call × Except RecordPart ReplayStats :=
  let (records, part, _) := Record.decode bytes
  let (cs, p) := trace start arrivals records
  match part with
  | some part => (cs, .error part)
  | none =>
    let (last, stats) := finish p
    (cs ++ last, .ok stats)

end Replay

def Graph.replay (g : Graph) (arrivals : List Nat) (bytes : List UInt8) :
    Except Error ReplayStats × Graph :=
  let (cs, result) := Replay.plan arrivals bytes
  (result.mapError Error.truncated, cs.foldl Call.apply g)

end Readout
