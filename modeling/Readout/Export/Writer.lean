import Readout.Volume.Basic

/-!
# Export writers

Output goes through a buffer of 8192 bytes, which is written out when the next piece does not
fit. A compressing writer hands to such a buffer what its compressor emits. An operation of a
writer answers with the failure of a file operation, if there was one, and with the writer as it
is then. A writer that is given up still holds what could not be written, and tries once more.
-/
namespace Readout

/-- Buffered pieces, the newest first. -/
structure Buffered where
  handle : FileHandle
  position : Nat
  pieces : List (List UInt8)
  size : Nat

namespace Buffered

def capacity : Nat := 8192

variable {V : Type} [Files V]

def new (h : FileHandle) : Buffered := ⟨h, 0, [], 0⟩

def pending (b : Buffered) : List UInt8 := b.pieces.reverse.flatten

def writeThrough (b : Buffered) (bytes : List UInt8) (v : V) :
    Option FileError × Buffered × V :=
  match Files.write v b.handle b.position bytes with
  | (.ok _, v) => (none, { b with position := b.position + bytes.length }, v)
  | (.error e, v) => (some e, b, v)

/-- What cannot be written out stays in the buffer. -/
def flush (b : Buffered) (v : V) : Option FileError × Buffered × V :=
  if b.size = 0 then (none, b, v)
  else
    match b.writeThrough b.pending v with
    | (none, b, v) => (none, { b with pieces := [], size := 0 }, v)
    | (some e, b, v) => (some e, b, v)

def push (b : Buffered) (bytes : List UInt8) : Buffered :=
  { b with pieces := bytes :: b.pieces, size := b.size + bytes.length }

/-- A piece as long as the buffer or longer is not buffered. -/
def write (b : Buffered) (bytes : List UInt8) (v : V) : Option FileError × Buffered × V :=
  if b.size + bytes.length ≤ capacity ∧ bytes.length < capacity then (none, b.push bytes, v)
  else
    match if b.size + bytes.length ≤ capacity then (none, b, v) else b.flush v with
    | (some e, b, v) => (some e, b, v)
    | (none, b, v) =>
      if capacity ≤ bytes.length then b.writeThrough bytes v else (none, b.push bytes, v)

end Buffered

inductive ExportWriter
  | plain (b : Buffered)
  /-- Pieces that the compressor took, the newest first. -/
  | compressed (b : Buffered) (pieces : List (List UInt8))

namespace ExportWriter

variable {V : Type} [Files V]

def create (path : String) (level : Int) (v : V) : Except FileError ExportWriter × V :=
  match Files.create v path with
  | (.error e, v) => (.error e, v)
  | (.ok h, v) =>
    if level = 0 then (.ok (.plain (Buffered.new h)), v)
    else (.ok (.compressed (Buffered.new h) []), v)

/-- The compressor takes a piece only if what it emits for it could be kept. -/
def write (w : ExportWriter) (bytes : List UInt8) (v : V) : Option FileError × ExportWriter × V :=
  match w with
  | .plain b =>
    let (e, b, v) := b.write bytes v
    (e, .plain b, v)
  | .compressed b pieces =>
    match b.write (Files.compress V pieces.reverse bytes) v with
    | (none, b, v) => (none, .compressed b (bytes :: pieces), v)
    | (some e, b, v) => (some e, .compressed b pieces, v)

def writeAll (w : ExportWriter) (v : V) : List (List UInt8) → Option FileError × ExportWriter × V
  | [] => (none, w, v)
  | bytes :: rest =>
    match w.write bytes v with
    | (none, w, v) => w.writeAll v rest
    | (some e, w, v) => (some e, w, v)

/-- Ends the stream of the compressor, behind which the buffer is a plain one. -/
def finish (w : ExportWriter) (v : V) : Option FileError × ExportWriter × V :=
  match w with
  | .plain b =>
    let (e, b, v) := b.flush v
    (e, .plain b, v)
  | .compressed b pieces =>
    match b.write (Files.compressEnd V pieces.reverse) v with
    | (some e, b, v) => (some e, .compressed b pieces, v)
    | (none, b, v) =>
      let (e, b, v) := b.flush v
      (e, .plain b, v)

/-- A writer that is given up still writes out what is pending, whatever comes of it. -/
def release (w : ExportWriter) (v : V) : V :=
  match w with
  | .plain b => (b.flush v).2.2
  | .compressed b pieces =>
    let (_, b, v) := b.write (Files.compressEnd V pieces.reverse) v
    (b.flush v).2.2

end ExportWriter

end Readout
