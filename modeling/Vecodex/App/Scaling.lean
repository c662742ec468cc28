import Vecodex.App.System

/-!
# Searchers that come and go

A searcher is constructed with empty indexes (`Searcher::Searcher` of `app/src/Searcher.cpp`), under
an address that may have been another searcher's before; nothing is read from the object store at
this point. It may be the first one at the address, as when the operator raises the replicas of the
role, or the next one after the process has ended.

The writer does not notice. Its tasks send what they have to send to the hosts etcd lists when they
run, and to nobody afterwards.
-/

namespace Vecodex

open Lib

variable {B Vec Dist Time : Type}

/-- What happens to a system whose searchers come and go. -/
inductive ScalingEvent (Vec Time : Type)
  | event (e : Event Vec Time)
  /-- The searcher at the address ends, if there is one, and one with the given configuration is
  constructed; or none is. -/
  | restart (host : String) (shardsConfigs : Option (List ShardConfig))

namespace System

def restart (rt : Runtime B Text Vec Dist) (st : System B) (host : String)
    (shardsConfigs : Option (List ShardConfig)) : System B :=
  { st with
    searchers := Function.update st.searchers host (shardsConfigs.map (Searcher.create rt)) }

def execScaling [LT Time] [DecidableLT Time] (rt : Runtime B Text Vec Dist) (platform : Platform B)
    (st : System B) : ScalingEvent Vec Time → Except Fault (System B)
  | .event e => st.exec rt platform e
  | .restart host shardsConfigs => .ok (st.restart rt host shardsConfigs)

def runScaling [LT Time] [DecidableLT Time] (rt : Runtime B Text Vec Dist) (platform : Platform B)
    (st : System B) (events : List (ScalingEvent Vec Time)) : Except Fault (System B) :=
  events.foldlM (execScaling rt platform) st

end System

end Vecodex
