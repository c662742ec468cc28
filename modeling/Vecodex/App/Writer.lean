import Mathlib.Data.String.Basic
import Vecodex.Index.Codec
import Vecodex.Index.Index
import Vecodex.Lib.Double

/-!
# The writer (`app/src/Writer.cpp`)

The writer keeps one index for every shard that etcd lists. A write request adds a document to the
shard with the least response time, or, with a `delete` attribute, erases it. The indexes are
objects behind shared pointers: `shards` holds pointers, `objects` the indexes.

Every index is created with a callback that posts a task to `callback_runner`, a pool of one
thread. Requests and tasks hold `runner_lock` from their first line to their last, so the tasks a
request posts wait until it is over, and the model appends them to the queue at its end. A task
captures the erased ids and the pointers of the inserted segments; what these segments are called
and contain is read when the task runs.

The answers of etcd come with every event (`Env`). They may differ from one event to the next. An
error of etcd, or a response time that is no number, makes the client throw; the model has no such
answers, so it is of runs in which etcd answers.
-/

namespace Vecodex

open Lib

variable {B Vec Dist Time : Type}

/-- What an event finds outside the process: the answers of etcd, none of them an error, and the
iteration order of the tables of shards. -/
structure Env (Time : Type) where
  listShardIds : String → List String
  getSearcherAverageResponseTime : String → String → Time
  listSearcherHosts : String → String → List String
  shardOrder : IterOrder String

structure WriteRequest (Vec : Type) where
  id : Text
  vectorData : Vec
  attributes : AList fun _ : String => String

inductive Status
  | ok
  | invalidArgument (message : String)
  deriving DecidableEq, Repr

/-- An index of the writer, with the names its callback carries. -/
structure Shard (B : Type) where
  index : Index B Text
  indexId : String
  shardId : String

/-- A task of the queue: the call of the callback and the names that came with it. `object` is the
index whose segments the call hands over. -/
structure Task where
  object : Nat
  indexId : String
  shardId : String
  call : Call
  deriving DecidableEq, Repr

structure Writer (B : Type) where
  indexesCreateAgrs : AList fun _ : String => IndexConfig
  shards : AList fun _ : String => AList fun _ : String => Nat
  objects : Heap (Shard B)
  /-- The gauge `vectors_count`, by its labels `index_id` and `shard_id`. -/
  vectorsCount : AList fun _ : String × String => Nat
  callbackRunner : List Task
  /-- How many values the process has taken from `rand()`. -/
  draws : Nat

namespace Writer

/-- `shards[index_id]`, which is a new empty table when there is none. -/
def table (w : Writer B) (indexId : String) : AList fun _ : String => Nat :=
  (w.shards.lookup indexId).getD ∅

/-- A writer before its first look at etcd. -/
def create (rt : Runtime B Text Vec Dist) (indexesConfig : AList fun _ : String => IndexConfig) :
    Writer B :=
  { indexesCreateAgrs := indexesConfig
    shards := ∅
    objects := Heap.empty ⟨Index.create rt ⟨1, by decide, by decide, false, .flat⟩ true 0, "", ""⟩
    vectorsCount := ∅
    callbackRunner := []
    draws := 0 }

/-! ## `updateIndexesState` -/

/-- A `std::set` of the elements of a vector, in its order. -/
def setOf (shardIds : List String) : List String := shardIds.dedup.insertionSort (· ≤ ·)

def dropShard (indexId : String) (w : Writer B) (shardId : String) : Writer B :=
  { w with shards := w.shards.insert indexId ((w.table indexId).erase shardId) }

/-- `CreateIndex` and `setUpdateCallback`. -/
def addShard (rt : Runtime B Text Vec Dist) (indexId : String) (config : IndexConfig)
    (w : Writer B) (shardId : String) : Writer B :=
  { w with
    shards := w.shards.insert indexId ((w.table indexId).insert shardId w.objects.next)
    objects := w.objects.alloc ⟨Index.create rt config true w.draws, indexId, shardId⟩
    draws := w.draws + 1 }

/-- The body of the loop, for an index and its configuration. -/
def updateIndexState (rt : Runtime B Text Vec Dist) (env : Env Time) (w : Writer B)
    (entry : Σ _ : String, IndexConfig) : Writer B :=
  let shardIds := env.listShardIds entry.1
  if shardIds = [] then { w with shards := w.shards.erase entry.1 }
  else
    let w := if entry.1 ∈ w.shards then w else { w with shards := w.shards.insert entry.1 ∅ }
    let toDel := (env.shardOrder.arrange (w.table entry.1).keys).filter fun s => s ∉ shardIds
    let toAdd := (setOf shardIds).filter fun s => s ∉ w.table entry.1
    toAdd.foldl (addShard rt entry.1 entry.2) (toDel.foldl (dropShard entry.1) w)

def updateIndexesState (rt : Runtime B Text Vec Dist) (env : Env Time) (w : Writer B) : Writer B :=
  w.indexesCreateAgrs.entries.foldl (updateIndexState rt env) w

/-! ## `ProcessWriteRequest` -/

/-- The first shard, in iteration order, whose response time no later one goes below. -/
def chooseShard [LT Time] [DecidableLT Time] (w : Writer B) (env : Env Time) (indexId : String) :
    String :=
  let best := (env.shardOrder.arrange (w.table indexId).keys).foldl
    (fun best shardId =>
      let time := env.getSearcherAverageResponseTime indexId shardId
      match best with
      | none => some (shardId, time)
      | some (_, minTime) => if time < minTime then some (shardId, time) else best)
    (none : Option (String × Time))
  (best.map Prod.fst).getD ""

/-- The writer after a call left the index object `o` as `index`. The tasks the callback posted
during the call join the queue. -/
def settle (w : Writer B) (o : Nat) (index : Index B Text) : Writer B :=
  let shard := w.objects.get o
  { w with
    objects := w.objects.set o { shard with index := index }
    callbackRunner := w.callbackRunner ++ (index.calls.drop shard.index.calls.length).map
      fun call => ⟨o, shard.indexId, shard.shardId, call⟩
    draws := index.draws }

/-- A call on the index `shards[index_id][shard_id]`. An entry that does not exist is a null
pointer, and the call through it ends the process. -/
def call (rt : Runtime B Text Vec Dist) (w : Writer B) (indexId shardId : String)
    (edit : Edit Text Vec) : Except Fault (Writer B) :=
  match (w.table indexId).lookup shardId with
  | none => .error .nullIndex
  | some o => do
    let index ← ({ (w.objects.get o).index with draws := w.draws } : Index B Text).exec rt edit.op
    return w.settle o index

/-- `SetGauge("vectors_count", value, labels)`, of a `size_t`; a gauge holds a double. -/
def setGauge (w : Writer B) (labels : String × String) (value : Int) : Writer B :=
  { w with vectorsCount := w.vectorsCount.insert labels (toDouble (sizeT value)) }

/-- `GetGaugeValue<size_t>("vectors_count", labels)`, 0 for a gauge that was never set. The only
value that is no `size_t` is 2^64; C++ does not say what it is converted to, and here it is 0. -/
def gaugeValue (w : Writer B) (labels : String × String) : Nat :=
  sizeT ((w.vectorsCount.lookup labels).getD 0 : Nat)

/-- A request without `delete` goes to the chosen shard; one with `delete` goes to the shard that
is named like the index. The gauge is that of the chosen shard in both cases. -/
def processWriteRequest [LT Time] [DecidableLT Time] (rt : Runtime B Text Vec Dist) (w : Writer B)
    (env : Env Time) (request : WriteRequest Vec) : Except Fault (Writer B × Status) :=
  let w := w.updateIndexesState rt env
  match request.attributes.lookup "index-id" with
  | none => .ok (w, .invalidArgument "Missing index id")
  | some indexId =>
    if indexId ∉ w.shards then .ok (w, .invalidArgument "Wrong index id")
    else
      let shardId := w.chooseShard env indexId
      let vecCnt := w.gaugeValue (indexId, shardId)
      if "delete" ∉ request.attributes then do
        let w ← w.call rt indexId shardId (.add [(request.id, request.vectorData)])
        return (w.setGauge (indexId, shardId) (vecCnt + 1), .ok)
      else do
        let w ← w.call rt indexId indexId (.erase [request.id])
        return (w.setGauge (indexId, shardId) (vecCnt - 1), .ok)

end Writer

end Vecodex
