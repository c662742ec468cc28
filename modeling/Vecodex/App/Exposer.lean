import Mathlib.Data.List.AList
import Vecodex.Lib.Threads

/-!
# Metrics (`app/include/utils/PrometheusExposer.h`)

The handlers of a process update their metrics from several threads. Every method of the exposer
holds the lock for each look at the tables and not for the whole call: `IncrementCounter` looks for
the family of the name, lets the lock go when there is none, makes the family with `AddCounter`,
which looks again, and takes the lock a third time to increment. `SetGauge` does the same with
gauges.

Counters and gauges have a table each and the same code, so both are written once, with the kind of
the metric as an argument. `Add` of the metrics library finds the metric of the labels or makes one
with the value zero. `registered` is a history variable: the families that were made, in order.
-/

namespace Vecodex

open Lib

/-- The labels of a metric, in the order of their names. -/
abbrev Labels := List (String × String)

inductive Metric
  | counter
  | gauge
  deriving DecidableEq, Repr

/-- The metrics of one name. -/
abbrev Family (V : Type) := AList fun _ : Labels => V

structure Exposer (V : Type) where
  counterFamilies : AList fun _ : String => Family V
  gaugeFamilies : AList fun _ : String => Family V
  registered : List (Metric × String)

variable {T V : Type} [Zero V] [Add V]

/-- `Increment` of a counter, `Set` of a gauge. -/
def Metric.apply (kind : Metric) (value : V) (old : V) : V :=
  match kind with
  | .counter => old + value
  | .gauge => value

namespace Exposer

def empty : Exposer V := { counterFamilies := ∅, gaugeFamilies := ∅, registered := [] }

def families (e : Exposer V) : Metric → AList fun _ : String => Family V
  | .counter => e.counterFamilies
  | .gauge => e.gaugeFamilies

def setFamily (e : Exposer V) (kind : Metric) (name : String) (family : Family V) : Exposer V :=
  match kind with
  | .counter => { e with counterFamilies := e.counterFamilies.insert name family }
  | .gauge => { e with gaugeFamilies := e.gaugeFamilies.insert name family }

/-- The value of the metric that `Add` returns. -/
def added (family : Family V) (labels : Labels) : V := (family.lookup labels).getD 0

/-! ## What is done under the lock -/

/-- `AddCounter` and `AddGauge`. -/
def addFamily (e : Exposer V) (kind : Metric) (name : String) (labels : Labels) : Exposer V :=
  if name ∈ e.families kind then e
  else
    { e.setFamily kind name ((∅ : Family V).insert labels 0) with
      registered := e.registered ++ [(kind, name)] }

/-- The metric is updated, when its family is there. -/
def update (e : Exposer V) (kind : Metric) (name : String) (value : V) (labels : Labels) :
    Option (Exposer V) :=
  ((e.families kind).lookup name).map fun family =>
    e.setFamily kind name (family.insert labels (kind.apply value (added family labels)))

/-- `GetCounterValue` and `GetGaugeValue`, which make the metric when its family is there. -/
def getValue (e : Exposer V) (kind : Metric) (name : String) (labels : Labels) :
    Option V × Exposer V :=
  match (e.families kind).lookup name with
  | none => (none, e)
  | some family =>
    (some (added family labels),
      e.setFamily kind name (family.insert labels (added family labels)))

end Exposer

/-! ## Threads -/

/-- `IncrementCounter` or `SetGauge`, `GetCounterValue` or `GetGaugeValue`. -/
inductive MetricCall (V : Type)
  | put (kind : Metric) (name : String) (value : V) (labels : Labels)
  | getValue (kind : Metric) (name : String) (labels : Labels)

namespace MetricCall

def incrementCounter (name : String) (value : V) (labels : Labels) : MetricCall V :=
  put .counter name value labels

def setGauge (name : String) (value : V) (labels : Labels) : MetricCall V :=
  put .gauge name value labels

def getCounterValue (name : String) (labels : Labels) : MetricCall V :=
  getValue .counter name labels

def getGaugeValue (name : String) (labels : Labels) : MetricCall V :=
  getValue .gauge name labels

end MetricCall

/-- How far an update has come: it has not looked yet, has found no family, has made sure that there
is one. -/
inductive Stage
  | looking
  | absent
  | ready
  deriving DecidableEq, Repr

/-- The calls a thread has still to make, and how far it is in the first one. -/
structure MetricThread (V : Type) where
  todo : List (MetricCall V)
  stage : Stage

structure Metrics (T V : Type) where
  exposer : Exposer V
  /-- The calls that have returned, with the values they found. -/
  log : List (Entry T (MetricCall V) (Option V))
  /-- A call through a family that is not there has ended the process. -/
  crashed : Bool

namespace Metrics

/-- A call returns. -/
def finish (m : Metrics T V) (t : T) (call : MetricCall V) (todo : List (MetricCall V))
    (result : Option V × Exposer V) : MetricThread V × Metrics T V :=
  (⟨todo, .looking⟩,
    { m with exposer := result.2, log := m.log ++ [⟨t, call, result.1⟩] })

/-- The next thing a thread does under the lock. -/
def next (t : T) (l : MetricThread V) (m : Metrics T V) : Option (MetricThread V × Metrics T V) :=
  if m.crashed then none
  else
    match l.todo with
    | [] => none
    | .getValue kind name labels :: todo =>
      some (m.finish t (.getValue kind name labels) todo (m.exposer.getValue kind name labels))
    | .put kind name value labels :: todo =>
      match l.stage, m.exposer.update kind name value labels with
      | .looking, some e => some (m.finish t (.put kind name value labels) todo (none, e))
      | .looking, none => some (⟨l.todo, .absent⟩, m)
      | .absent, _ =>
        some (⟨l.todo, .ready⟩, { m with exposer := m.exposer.addFamily kind name labels })
      | .ready, some e => some (m.finish t (.put kind name value labels) todo (none, e))
      | .ready, none => some (l, { m with crashed := true })

def start (program : T → List (MetricCall V)) : Threads T (MetricThread V) (Metrics T V) :=
  ⟨⟨.empty, [], false⟩, fun t => ⟨program t, .looking⟩⟩

end Metrics

end Vecodex
