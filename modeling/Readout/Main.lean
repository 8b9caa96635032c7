import Readout.CommandLine
import Std.Time.Format

/-!
# The program

The outer layer of the command line. It copies what the program can reach from the disk to a
volume, runs the program there and copies what has changed back. Ticks come from the clock.
-/
namespace Readout.Program

open CommandLine

def absolute (place : List String) : String := "/" ++ String.intercalate "/" place

/-- What the disk holds at a place. A directory is what cannot be read. -/
def nodeAt (place : List String) : IO (Option Node) := do
  match place with
  | ["dev", "full"] => return some .full
  | ["dev", "null"] => return some .sink
  | _ =>
    try
      return some (.file (← IO.FS.readBinFile (absolute place)).toList)
    catch
      | .noFileOrDirectory .. => return none
      | _ => return some .directory

def fetch (v : Volume) (place : List String) : IO Volume := do
  match v.find? place, v.find? place.dropLast with
  | none, some .directory =>
    match ← nodeAt place with
    | some n => return v.put place n
    | none => return v
  | _, _ => return v

def fetchPath (v : Volume) (path : String) : IO Volume := (v.placesOn path).foldlM fetch v

def emptyVolume : IO Volume := do
  let current := ((toString (← IO.currentDir)).splitOn "/").filter (· ≠ "")
  return ⟨(List.range (current.length + 1)).map fun n => (current.take n, .directory), current⟩

def reachable (a : Arguments) : IO Volume := do
  let paths := [a.config, a.input, a.histos] ++ a.summary.toList ++ a.logFile.toList
  let v ← paths.foldlM fetchPath (← emptyVolume)
  match Config.load v a.config with
  | .ok c => c.paths.foldlM fetchPath v
  | .error _ => return v

/-- Copies to the disk what is new or has changed. -/
def keep (before after : Volume) : IO Unit :=
  after.nodes.forM fun (place, n) =>
    if before.find? place = some n then return
    else
      match n with
      | .directory => IO.FS.createDirAll (absolute place)
      | .file bytes => IO.FS.writeBinFile (absolute place) bytes.toByteArray
      | _ => return

/-- A replay under way, and the time of the last tick. -/
structure Playback where
  graph : Graph
  progress : Replay.Progress
  lastTick : Nat

/-- No more ticks than that wait. -/
def maxWaiting : Nat := 16

def play (interval : Nat) (p : Playback) (r : Record) : IO Playback := do
  let due := ((← IO.monoMsNow) - p.lastTick) / interval
  let (cs, progress) := Replay.calls p.progress (min due maxWaiting) r
  return ⟨cs.foldl Call.apply p.graph, progress, p.lastTick + due * interval⟩

def replay (a : Arguments) (s : Session) : IO (Except Failure ReplayStats × Graph) := do
  match s.stream with
  | .error _ => return s.replay []
  | .ok bytes =>
    let (records, part, _) := Record.decode bytes
    let p ← records.foldlM (play (max a.tickMs 1))
      ⟨s.graph.beginRun, Replay.start, ← IO.monoMsNow⟩
    match part with
    | some part =>
      return (.error (.replaying (Error.truncated part).message), p.graph.endRun)
    | none =>
      let (last, stats) := Replay.finish p.progress
      return (.ok stats, (last.foldl Call.apply p.graph).endRun)

def now : IO String := do
  let t := Std.Time.DateTime.ofTimestamp (← Std.Time.Timestamp.now) Std.Time.TimeZone.ZoneRules.UTC
  return t.format "uuuu-MM-dd'T'HH:mm:ss.SSSSSSSSS'Z'"

def randomSeed : IO UInt64 := do
  return UInt64.ofNat (Bytes.decode (← IO.getRandomBytes 8).toList)

/-- Prints what has no file of its own and returns the exit code. -/
def report (a : Arguments) (started stopped : String) : Except Failure Summary → IO UInt32
  | .error e => do
    IO.eprintln e.text
    return 1
  | .ok s => do
    if a.summary.isNone then IO.println (Json.text (s.document started stopped))
    return 0

def runOn (a : Arguments) (before v : Volume) : IO UInt32 := do
  match prepare a (← randomSeed) v with
  | .error e => do
    keep before v
    report a "" "" (.error e)
  | .ok session =>
    let started ← now
    let (stats, g) ← replay a session
    let stopped ← now
    match stats with
    | .error e => do
      keep before g.volume
      report a started stopped (.error e)
    | .ok stats => do
      let (result, after) := finish a stats g started stopped
      keep before after
      report a started stopped result

def run (a : Arguments) : IO UInt32 := do
  let before ← reachable a
  match openLog before a.logFile with
  | .error e => report a "" "" (.error e)
  | .ok v => runOn a before v

end Readout.Program

open Readout in
def main (arguments : List String) : IO UInt32 := do
  match CommandLine.Arguments.parse arguments with
  | .error e => do
    IO.eprintln ("error: " ++ e.message)
    return 2
  | .ok a => Program.run a
