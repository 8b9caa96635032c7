import Readout.Scalar

/-!
# Windows

A window is a half-open interval. A bound that is not set is a NaN and stands for the limit that
the windowed element declares.
-/
namespace Readout

structure Window (α : Type) where
  min : α
  max : α
deriving DecidableEq

namespace Window

def contains {α : Type} [Scalar α] (w : Window α) (v : α) : Bool :=
  Scalar.atMost w.min v && Scalar.below v w.max

def unbounded : Window Value := ⟨Value.unset, Value.unset⟩

def orLimits (w : Window Value) (lower upper : Value) : Window Value :=
  ⟨if w.min.isNaN then lower else w.min, if w.max.isNaN then upper else w.max⟩

def admits (w : Window Value) (v : Value) : Bool := v.isValid && w.contains v

end Window

end Readout
