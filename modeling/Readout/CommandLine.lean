import Readout.Config.Build
import Readout.Config.File
import Readout.Histogram.File
import Readout.Record.Replay

/-!
# The command line

The program takes a configuration and a recorded stream, replays the stream, writes all histograms
over one axis to a file and reports what was done. Everything happens on a volume; a failure is
reported by what was being done, followed by its cause.
-/
namespace Readout.CommandLine

structure Arguments where
  config : String
  input : String
  histos : String
  /-- Standard output takes the summary if there is no file for it. -/
  summary : Option String
  tickMs : Nat
  logFile : Option String

inductive UsageError
  | missing
  | unexpected (argument : String)
  | noValue (option : String)
  | badNumber (text : String)
deriving DecidableEq

def UsageError.message : UsageError → String
  | missing => "the following required arguments were not provided: <CONFIG> <INPUT>"
  | unexpected a => s!"unexpected argument '{a}' found"
  | noValue o => s!"a value is required for '{o}' but none was supplied"
  | badNumber t => s!"invalid value '{t}' for '--tick-ms <TICK_MS>'"

structure Gathering where
  files : List String
  histos : String
  summary : Option String
  tickMs : Nat
  logFile : Option String

namespace Gathering

def start : Gathering := ⟨[], "histos.bin", none, 1000, none⟩

def optionNames : List String := ["--histos", "--summary", "--tick-ms", "--log-file"]

def number (text : String) : Except UsageError Nat :=
  match Reference.element? text.toList with
  | some n => return n
  | none => throw (.badNumber text)

def setOption (g : Gathering) (name value : String) : Except UsageError Gathering :=
  match name with
  | "--histos" => return { g with histos := value }
  | "--summary" => return { g with summary := some value }
  | "--tick-ms" => return { g with tickMs := ← number value }
  | "--log-file" => return { g with logFile := some value }
  | _ => throw (.unexpected name)

def addFile (g : Gathering) (file : String) : Except UsageError Gathering :=
  if g.files.length < 2 then return { g with files := file :: g.files }
  else throw (.unexpected file)

/-- An option with its value behind an equals sign. -/
def joined? (argument : String) : Option (String × String) :=
  match argument.splitOn "=" with
  | name :: value :: more =>
    if optionNames.contains name then some (name, String.intercalate "=" (value :: more)) else none
  | _ => none

def read : Gathering → List String → Except UsageError Gathering
  | g, [] => return g
  | g, argument :: rest =>
    if optionNames.contains argument then
      match rest with
      | [] => throw (.noValue argument)
      | value :: rest => do read (← g.setOption argument value) rest
    else
      match joined? argument with
      | some (name, value) => do read (← g.setOption name value) rest
      | none =>
        if argument.startsWith "-" ∧ argument ≠ "-" then throw (.unexpected argument)
        else do read (← g.addFile argument) rest

end Gathering

def Arguments.parse (arguments : List String) : Except UsageError Arguments := do
  let g ← Gathering.start.read arguments
  match g.files with
  | [input, config] => return ⟨config, input, g.histos, g.summary, g.tickMs, g.logFile⟩
  | _ => throw .missing

inductive Failure
  | logPath (path : String)
  | logFile (e : FileError)
  | loading (path : String) (e : Error)
  | building (e : Error)
  | opening (path : String) (e : FileError)
  | replaying (cause : String)
  | creating (path : String) (e : FileError)
  | storing (cause : String)
  | writing (path : String) (e : FileError)

namespace Failure

/-- What was being done. A failure while histograms are stored stands for itself. -/
def headline : Failure → String
  | logPath p => s!"invalid log file path {Quoted.quote p}"
  | logFile e => e.message
  | loading p _ => s!"loading {Quoted.quote p}"
  | building _ => "building analysis"
  | opening p _ => s!"opening {Quoted.quote p}"
  | replaying _ => "replaying input"
  | creating p _ => s!"creating {Quoted.quote p}"
  | storing cause => cause
  | writing p _ => s!"writing {Quoted.quote p}"

def cause? : Failure → Option String
  | logPath _ | logFile _ | storing _ => none
  | loading _ e | building e => some e.message
  | opening _ e | creating _ e | writing _ e => some e.message
  | replaying cause => some cause

def text (f : Failure) : String :=
  "Error: " ++ f.headline ++
    match f.cause? with
    | some cause => "\n\nCaused by:\n    " ++ cause
    | none => ""

end Failure

structure Summary where
  config : String
  input : String
  stats : ReplayStats
  sources : Nat
  operators : Nat
  histograms : Nat
  arenaUsed : Nat
  arenaCapacity : Nat

def Summary.document (s : Summary) (started stopped : String) : Document :=
  .table [("config", .text s.config), ("input", .text s.input), ("started", .text started),
    ("stopped", .text stopped), ("records", .natural s.stats.records),
    ("events", .natural s.stats.events), ("words", .natural s.stats.words),
    ("timeticks", .natural s.stats.ticks), ("sources", .natural s.sources),
    ("operators", .natural s.operators), ("histograms", .natural s.histograms),
    ("arena_used", .natural s.arenaUsed), ("arena_capacity", .natural s.arenaCapacity)]

/-- A graph that is ready to be replayed on, and the bytes of the stream. A directory can be
opened like a stream but not be read. -/
structure Session where
  graph : Graph
  stream : Except FileError (List UInt8)

def openLog (v : Volume) : Option String → Except Failure Volume
  | none => return v
  | some path =>
    match Path.fileName? path with
    | none => throw (.logPath path)
    | some _ => (v.touch path).mapError Failure.logFile

def openStream (v : Volume) (path : String) : Except FileError (Except FileError (List UInt8)) :=
  match v.contents path with
  | .ok bytes => return .ok bytes
  | .error .isDirectory => return .error .isDirectory
  | .error e => throw e

def prepare (a : Arguments) (seed : UInt64) (v : Volume) : Except Failure Session := do
  let config ← (Config.load v a.config).mapError (Failure.loading a.config)
  let analysis ← (config.build seed v).mapError Failure.building
  let stream ← (openStream v a.input).mapError (Failure.opening a.input)
  return ⟨analysis.graph, stream⟩

/-- Replays the stream as one run, which ends also when the stream breaks off. -/
def Session.replay (s : Session) (arrivals : List Nat) : Except Failure ReplayStats × Graph :=
  let g := s.graph.beginRun
  match s.stream with
  | .error e => (.error (.replaying ("IO error: " ++ e.message)), g.endRun)
  | .ok bytes =>
    let (r, g) := g.replay arrivals bytes
    (r.mapError fun e => Failure.replaying e.message, g.endRun)

/-- Writes pieces through a buffer. A piece that has no form fails after those before it. -/
def writePieces (path : String) (pieces : List (List UInt8)) (e : Option LayoutError)
    (v : Volume) : Except Failure Unit × Volume :=
  match v.create path with
  | (.error e, v) => (.error (.creating path e), v)
  | (.ok h, v) =>
    match ExportWriter.writeAll (.plain (Buffered.new h)) v pieces with
    | (some e, w, v) => (.error (.storing e.message), w.release v)
    | (none, w, v) =>
      match w.finish v, e with
      | (_, _, v), some e => (.error (.storing e.message), v)
      | (some e, w, v), none => (.error (.storing e.message), w.release v)
      | (none, _, v), none => (.ok (), v)

def summarize (a : Arguments) (stats : ReplayStats) (g : Graph) : Summary where
  config := a.config
  input := a.input
  stats := stats
  sources := g.sourceCount
  operators := g.operatorCount
  histograms := g.histograms.length
  arenaUsed := g.arena.used
  arenaCapacity := g.arena.capacity

def finish (a : Arguments) (stats : ReplayStats) (g : Graph) (started stopped : String) :
    Except Failure Summary × Volume :=
  let (pieces, e) := Histogram.encodeList g.arena.store g.histograms
  match writePieces a.histos pieces e g.volume with
  | (.error e, v) => (.error e, v)
  | (.ok _, v) =>
    let summary := summarize a stats g
    match a.summary with
    | none => (.ok summary, v)
    | some path =>
      match v.writeFile path (Json.text (summary.document started stopped)).toUTF8.toList with
      | (.ok _, v) => (.ok summary, v)
      | (.error e, v) => (.error (.writing path e), v)

def run (a : Arguments) (seed : UInt64) (arrivals : List Nat) (started stopped : String)
    (v : Volume) : Except Failure Summary × Volume :=
  match openLog v a.logFile with
  | .error e => (.error e, v)
  | .ok v =>
    match prepare a seed v with
    | .error e => (.error e, v)
    | .ok session =>
      match session.replay arrivals with
      | (.error e, g) => (.error e, g.volume)
      | (.ok stats, g) => finish a stats g started stopped

end Readout.CommandLine
