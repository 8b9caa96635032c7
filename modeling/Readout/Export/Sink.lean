import Readout.Export.Format
import Readout.Export.Writer

/-!
# Export sinks

A sink opens its file when a run begins, writes its inputs for every event and closes the file
when the run ends. A failing file operation is remembered and silences the sink until the next
run begins. With a condition, events without a valid condition value are left out.
-/
namespace Readout

inductive ExportAction
  | create
  | write
  | flush
deriving DecidableEq

structure ExportFailure where
  action : ExportAction
  path : String
  cause : FileError
deriving DecidableEq

def ExportAction.text : ExportAction → String
  | create => "failed to create"
  | write => "failed to write"
  | flush => "failed to flush"

def ExportFailure.text (f : ExportFailure) : String :=
  s!"{f.action.text} {f.path}: {f.cause.message}"

structure ExportSink where
  path : String
  format : ExportFormat
  level : Int
  /-- The last input decides whether an event is written. -/
  hasCondition : Bool
  writer : Option ExportWriter
  failure : Option ExportFailure
  events : Nat
  ticks : Nat

namespace ExportSink

variable {V : Type} [Files V]

def new (path : String) (format : ExportFormat) (level : Int) (hasCondition : Bool) :
    ExportSink := ⟨path, format, level, hasCondition, none, none, 0, 0⟩

def fail (s : ExportSink) (action : ExportAction) (e : FileError) : ExportSink :=
  { s with writer := none, failure := some ⟨action, s.path, e⟩ }

def abandon (w : Option ExportWriter) (v : V) : V :=
  match w with
  | some w => w.release v
  | none => v

def beginRun (s : ExportSink) (v : V) : ExportSink × V :=
  let old := s.writer
  let s := { s with events := 0, ticks := 0, failure := none }
  match ExportWriter.create s.path s.level v with
  | (.ok w, v) => ({ s with writer := some w }, abandon old v)
  | (.error e, v) => (s.fail .create e, abandon old v)

def endRun (s : ExportSink) (v : V) : ExportSink × V :=
  match s.writer with
  | none => (s, v)
  | some w =>
    match w.finish v with
    | (none, _, v) => ({ s with writer := none }, v)
    | (some e, w, v) => (s.fail .flush e, w.release v)

def tick (s : ExportSink) : ExportSink := { s with ticks := s.ticks + 1 }

def selected (s : ExportSink) (inputs : List (List Value)) : Option (List (List Value)) :=
  if s.hasCondition then
    match inputs.getLast? with
    | some (c :: _) => if c.isValid then some inputs.dropLast else none
    | _ => none
  else some inputs

def step (s : ExportSink) (inputs : List (List Value)) (v : V) : ExportSink × V :=
  match s.selected inputs, s.writer with
  | some data, some w =>
    match w.writeAll v (s.format.encode data) with
    | (none, w, v) => ({ s with writer := some w, events := s.events + 1 }, v)
    | (some e, w, v) => (s.fail .write e, w.release v)
  | _, _ => (s, v)

end ExportSink

end Readout
