import Vecodex.App.Etcd
import Vecodex.App.Merging

/-!
# The coordinator (`app/src/Coordinator.cpp`, `app/include/utils/Stats.h`)

A search request goes to the searchers of its index, and the coordinator merges what they answer.
It keeps the clients of the searchers in `searchers_map`, by index and shard, and reads the hosts
of the shards a request is for from etcd before it sends the request. It then asks every client
that `searchers_map` has for the index.

Errors and response times are counted for every shard. Right after a call the coordinator looks at
the counters: when there were errors it removes the host it has just asked from etcd, otherwise it
stores the response time. The collector that counts the call lives to the end of the loop body, so
the counters it looks at are those from before the call.

The replies of the searchers are a parameter, by the number of the call, the address and the
request. `contacts` is a history variable: all calls so far, each with what the coordinator did to
etcd after it.
-/

namespace Vecodex

open Lib

variable {Vec Time : Type}

/-! ## Statistics of a shard -/

structure StatsManager (Time : Type) where
  averageResponseTime : Time
  responsesCnt : Nat
  errorsCnt : Nat

namespace StatsManager

/-- The default constructor. -/
def new [Zero Time] : StatsManager Time :=
  { averageResponseTime := 0, responsesCnt := 0, errorsCnt := 0 }

/-- What the destructor of a collector reports: `none` after `SetError`, else the time. -/
def aggregateStats [Add Time] [Mul Time] [Div Time] [NatCast Time] (m : StatsManager Time)
    (respTime : Option Time) : StatsManager Time :=
  let m := { m with responsesCnt := m.responsesCnt + 1 }
  match respTime with
  | none => { m with errorsCnt := m.errorsCnt + 1 }
  | some responseTime =>
    { m with
      averageResponseTime :=
        (m.averageResponseTime * (m.responsesCnt : Time) + responseTime) /
          ((m.responsesCnt + 1 : Nat) : Time) }

end StatsManager

/-! ## Requests and replies -/

structure SearchRequest (Vec : Type) where
  vectorData : Vec
  k : Int
  indexId : String
  shardId : Option String

/-- What a call of a searcher comes to: the ids it answers with and the time it took, or an
error. -/
structure Reply (Time : Type) where
  answer : Option (List Text)
  respTime : Time

/-- What is not in the hands of the coordinator while it handles a request: the orders of its hash
tables and the ties of its sort. -/
structure Choices where
  shardOrder : IterOrder (Σ _ : String, List String)
  scoreOrder : IterOrder (Σ _ : Text, ℚ)
  sorting : Sorting (@scoresAbove Text)

/-- One call of a searcher, and what was done to etcd after it. -/
structure Contact (Time : Type) where
  indexId : String
  shardId : String
  address : String
  failed : Bool
  updates : List (RegistryCall Time)

/-! ## The coordinator -/

structure Coordinator (Time : Type) where
  searchersMap : AList fun _ : String => AList fun _ : String => List String
  searchersStats : AList fun _ : String => AList fun _ : String => StatsManager Time
  etcd : Etcd
  contacts : List (Contact Time)

namespace Coordinator

def kRequestsToNextUpdate : Nat := 1

def kHostErrorsLimit : Nat := 1

/-- A coordinator after its constructor. -/
def create (e : Etcd) : Coordinator Time :=
  { searchersMap := ∅, searchersStats := ∅, etcd := e, contacts := [] }

/-- `searchers_map[index_id]`, which is a new empty table when there is none. -/
def searchers (c : Coordinator Time) (indexId : String) : AList fun _ : String => List String :=
  (c.searchersMap.lookup indexId).getD ∅

/-- `searchers_stats[index_id][shard_id]`, which is new when there is none. -/
def stats [Zero Time] (c : Coordinator Time) (indexId shardId : String) : StatsManager Time :=
  (((c.searchersStats.lookup indexId).getD ∅).lookup shardId).getD .new

def setStats (c : Coordinator Time) (indexId shardId : String) (m : StatsManager Time) :
    Coordinator Time :=
  let table := ((c.searchersStats.lookup indexId).getD ∅).insert shardId m
  { c with searchersStats := c.searchersStats.insert indexId table }

/-- `update_with_index_shard_info`. -/
def updateWithIndexShardInfo [Zero Time] (indexId : String) (c : Coordinator Time)
    (shardId : String) : Coordinator Time :=
  let hosts := c.etcd.listSearcherHosts indexId (some shardId)
  let table := (c.searchers indexId).insert shardId hosts
  let c := { c with searchersMap := c.searchersMap.insert indexId table }
  -- the shard is looked for in the table just made, where it never is
  if indexId ∈ c.searchersStats then c else c.setStats indexId shardId .new

/-- The shards a request is for. -/
def requestedShards (e : Etcd) (request : SearchRequest Vec) : Except EtcdFault (List String) :=
  match request.shardId with
  | some shardId => .ok [shardId]
  | none => e.listShardIds request.indexId

def updateSearchersState [Zero Time] (c : Coordinator Time) (request : SearchRequest Vec) :
    Except EtcdFault (Coordinator Time) := do
  let shards ← requestedShards c.etcd request
  return shards.foldl (updateWithIndexShardInfo request.indexId) c

/-- What is done to etcd after a call. -/
def updateStateIfNeeded (indexId shardId address : String) (m : StatsManager Time) :
    List (RegistryCall Time) :=
  if m.errorsCnt ≥ kHostErrorsLimit then [.removeSearcherHost indexId shardId address]
  else if m.responsesCnt % kRequestsToNextUpdate = 0 then
    [.updateAverageResponseTime indexId shardId m.averageResponseTime]
  else []

section Requests

variable [Zero Time] [Add Time] [Mul Time] [Div Time] [NatCast Time]
variable (d : Doubles Time) (net : Nat → String → SearchRequest Vec → Reply Time)

/-- The next call of a searcher. -/
def contact (request : SearchRequest Vec) (shardId : String) (c : Coordinator Time)
    (address : String) : Contact Time :=
  { indexId := request.indexId
    shardId := shardId
    address := address
    failed := (net c.contacts.length address request).answer.isNone
    updates := updateStateIfNeeded request.indexId shardId address
      (c.stats request.indexId shardId) }

/-- The body of the loop over the clients of a shard: the call, a look at the counters, and last
the destructor of the collector. -/
def askSearcher (request : SearchRequest Vec) (shardId : String)
    (s : Coordinator Time × List (List Text)) (address : String) :
    Coordinator Time × List (List Text) :=
  let c := s.1
  let reply := net c.contacts.length address request
  let contact := c.contact net request shardId address
  let m := (c.stats request.indexId shardId).aggregateStats
    (reply.answer.map fun _ => reply.respTime)
  let c := { c with etcd := c.etcd.run d contact.updates, contacts := c.contacts ++ [contact] }
  (c.setStats request.indexId shardId m, s.2 ++ reply.answer.toList)

/-- The body of the loop over the shards. -/
def askShard (request : SearchRequest Vec) (s : Coordinator Time × List (List Text))
    (entry : Σ _ : String, List String) : Coordinator Time × List (List Text) :=
  entry.2.foldl (askSearcher d net request entry.1) s

/-- The loops over `searchers_map[index_id]`. -/
def askSearchers (order : IterOrder (Σ _ : String, List String)) (request : SearchRequest Vec)
    (c : Coordinator Time) : Coordinator Time × List (List Text) :=
  (order.arrange (c.searchers request.indexId).entries).foldl (askShard d net request) (c, [])

/-- The answer, and the coordinator afterwards. The conversion of `k` to `size_t` is that of the
language. -/
def processSearchRequest (choices : Choices) (c : Coordinator Time) (request : SearchRequest Vec) :
    Except EtcdFault (List Text × Coordinator Time) := do
  let c ← c.updateSearchersState request
  let (c, searchResponses) := askSearchers d net choices.shardOrder request c
  return (mergeSearcherAnswers choices.scoreOrder choices.sorting searchResponses
    (sizeT request.k), c)

end Requests

end Coordinator

/-! ## Runs -/

/-- What happens to a coordinator: a request, or a change of etcd by anybody else. -/
inductive CoordinatorEvent (Vec : Type)
  | search (choices : Choices) (request : SearchRequest Vec)
  | etcdChanged (e : Etcd)

namespace Coordinator

variable [Zero Time] [Add Time] [Mul Time] [Div Time] [NatCast Time]
variable (d : Doubles Time) (net : Nat → String → SearchRequest Vec → Reply Time)

/-- A request that fails leaves the coordinator as it was: the shards are listed first. -/
def step (c : Coordinator Time) : CoordinatorEvent Vec → Coordinator Time
  | .search choices request =>
    match c.processSearchRequest d net choices request with
    | .ok (_, c) => c
    | .error _ => c
  | .etcdChanged e => { c with etcd := e }

def run (c : Coordinator Time) (events : List (CoordinatorEvent Vec)) : Coordinator Time :=
  events.foldl (step d net) c

end Coordinator

end Vecodex
