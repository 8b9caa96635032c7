import Readout.Word

/-!
# Handles

A node is named by its event and by the number of nodes of its kind that were added to the event
before it. Both numbers fit one 32-bit word, the event in its high byte.
-/
namespace Readout

structure Handle where
  word : UInt32
deriving DecidableEq

namespace Handle

def indexBits : Nat := 24
def maxIndex : Nat := Word.size indexBits - 1

def new (event index : Nat) : Handle :=
  ⟨(UInt32.ofNat event <<< 24) ||| (UInt32.ofNat index &&& 0xffffff)⟩

def event (h : Handle) : Nat := (h.word >>> 24).toNat
def index (h : Handle) : Nat := (h.word &&& 0xffffff).toNat

def text (kind : String) (h : Handle) : String :=
  s!"{kind}(event={h.event}, index={h.index})"

def sourceText (h : Handle) : String := h.text "SourceId"
def operatorText (h : Handle) : String := h.text "OperatorId"

end Handle

end Readout
