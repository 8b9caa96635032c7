import Readout.Arena.Basic
import Readout.Rate.Sampler

/-!
# Rate monitors

A monitor keeps one sampler per element. Its input holds rates, which are recorded as they are,
or counters, which are sampled; or it counts the valid values that flow by and samples these
counts whenever time ticks.
-/
namespace Readout

inductive RateMode
  | precalculated
  | counter
  | flow
deriving DecidableEq

structure RateMonitor where
  samplers : List Sampler
  mode : RateMode
  hitCounts : Span
deriving DecidableEq

namespace RateMonitor

def zipSamplers (f : Sampler → Value → Sampler) : List Sampler → List Value → List Sampler
  | s :: ss, v :: vs => f s v :: zipSamplers f ss vs
  | ss, [] => ss
  | [], _ => []

def countValid (store : Store) (counts : Span) (i : Nat) : List Value → Store
  | [] => store
  | v :: vs => countValid (if v.isValid then store.increment counts i else store) counts (i + 1) vs

def beginRun (m : RateMonitor) (store : Store) : RateMonitor × Store :=
  ({ m with samplers := m.samplers.map Sampler.reset }, store.fill m.hitCounts Value.zero)

def step (m : RateMonitor) (store : Store) (values : List Value) : RateMonitor × Store :=
  match m.mode with
  | .precalculated =>
    let record (s : Sampler) (v : Value) := if v.isValid then s.record v else s
    ({ m with samplers := zipSamplers record m.samplers values }, store)
  | .counter =>
    let sample (s : Sampler) (v : Value) := if v.isValid then (s.sample v).1 else s
    ({ m with samplers := zipSamplers sample m.samplers values }, store)
  | .flow => (m, countValid store m.hitCounts 0 values)

def tick (m : RateMonitor) (store : Store) : RateMonitor :=
  match m.mode with
  | .flow =>
    let sample (s : Sampler) (v : Value) := (s.sample v).1
    { m with samplers := zipSamplers sample m.samplers (store.values m.hitCounts) }
  | _ => m

end RateMonitor

end Readout
