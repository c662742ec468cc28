import Vecodex.App.Writer

/-!
# Writer, object store and searchers

A callback task of the writer (`indexUpdateCallback` of `app/src/Writer.cpp`) puts the inserted
segments into the object store, deletes the erased ids from it, and sends both lists of ids to the
searchers of the shard. A searcher (`app/src/Searcher.cpp`) fetches the added segments and pushes
them; `eraseSegment` only reports whether a deleted one is there.

`System` is the writer with everything its tasks reach. A run is a list of events, each a write
request or the next task of the queue. A task is atomic under `runner_lock`, and the remote calls
return before it goes on, so the updates of the searchers are part of it.

The keys of the object store are pairs of a bucket and an object name. A bucket is named by the
hash of the index id, an object by the decimal digits of the segment id; both are kept as the
numbers they stand for.

`sent` is a history variable: the tasks that have run, each with the request it sent.
-/

namespace Vecodex

open Lib

variable {B Vec Dist Time : Type}

/-- The files of the processes, and `std::hash<std::string>`. -/
structure Platform (B : Type) extends Files B where
  hash : String → Nat

/-- The object store. -/
abbrev Store := AList fun _ : Nat × Nat => Bytes

structure UpdateRequest where
  added : List Nat
  deleted : List Nat
  indexId : String
  shardId : String
  deriving DecidableEq, Repr

/-! ## The searcher -/

structure Searcher (B : Type) where
  shards : AList fun _ : String => AList fun _ : String => Index B Text
  /-- How many values the process has taken from `rand()`. -/
  draws : Nat

/-- One entry of the configuration of a searcher. -/
structure ShardConfig where
  indexId : String
  shardId : String
  config : IndexConfig

namespace Searcher

/-- `shards[index_id]`, which is a new empty table when there is none. -/
def table (s : Searcher B) (indexId : String) : AList fun _ : String => Index B Text :=
  (s.shards.lookup indexId).getD ∅

def setShard (s : Searcher B) (indexId shardId : String) (index : Index B Text) : Searcher B :=
  { s with shards := s.shards.insert indexId ((s.table indexId).insert shardId index) }

/-- The body of the loop of the constructor. -/
def addShard (rt : Runtime B Text Vec Dist) (s : Searcher B) (item : ShardConfig) : Searcher B :=
  { s.setShard item.indexId item.shardId (Index.create rt item.config false s.draws) with
    draws := s.draws + 1 }

def create (rt : Runtime B Text Vec Dist) (shardsConfigs : List ShardConfig) : Searcher B :=
  shardsConfigs.foldl (addShard rt) { shards := ∅, draws := 0 }

/-- A call on the index `shards[index_id][shard_id]`; a missing entry is a null pointer. -/
def call (s : Searcher B) (indexId shardId : String)
    (f : Index B Text → Except Fault (Index B Text)) : Except Fault (Searcher B) :=
  match (s.table indexId).lookup shardId with
  | none => .error .nullIndex
  | some index => do
    let index ← f index
    return s.setShard indexId shardId index

/-- The body of the first loop: `getObject`, `DeserealizeSegment` and `pushSegment`. A file that
was not fetched cannot be opened, and reading from it ends the process; so does pushing a null
segment. -/
def pushAdded (platform : Platform B) (store : Store) (request : UpdateRequest) (s : Searcher B)
    (addedId : Nat) : Except Fault (Searcher B) :=
  match store.lookup (platform.hash request.indexId, addedId) with
  | none => .error .missingObject
  | some file => do
    let (segment, _) ← deserealizeSegment platform.toFiles file
    s.call request.indexId request.shardId fun index =>
      match segment with
      | none => .error .nullIndex
      | some segment => index.pushSegment segment

def eraseDeleted (request : UpdateRequest) (s : Searcher B) (deletedId : Nat) :
    Except Fault (Searcher B) :=
  s.call request.indexId request.shardId fun index => .ok (index.eraseSegment deletedId).2

def processUpdateRequest (platform : Platform B) (store : Store) (s : Searcher B)
    (request : UpdateRequest) : Except Fault (Searcher B) := do
  let s ← request.added.foldlM (pushAdded platform store request) s
  request.deleted.foldlM (eraseDeleted request) s

end Searcher

/-! ## Tasks -/

/-- A task that has run, and its request. -/
structure Sent where
  task : Task
  request : UpdateRequest
  deriving DecidableEq, Repr

structure System (B : Type) where
  writer : Writer B
  store : Store
  /-- The searchers that run, by their addresses. -/
  searchers : String → Option (Searcher B)
  sent : List Sent

/-- The request of a task, under the ids its segments carry when it runs. -/
def Task.request (task : Task) (index : Index B Text) : UpdateRequest :=
  { added := task.call.inserted.map index.idOf
    deleted := task.call.erased
    indexId := task.indexId
    shardId := task.shardId }

/-- The object store after the puts and the deletions of a task. -/
def Task.transfer (rt : Runtime B Text Vec Dist) (platform : Platform B) (task : Task)
    (index : Index B Text) (store : Store) : Store :=
  let bucket := platform.hash task.indexId
  let store := task.call.inserted.foldl
    (fun store p => store.insert (bucket, index.idOf p)
      (serializeSegment rt platform.toFiles (index.seg p))) store
  task.call.erased.foldl (fun store id => store.erase (bucket, id)) store

/-- `updateIndex` of the client for one host. -/
def updateIndex (platform : Platform B) (store : Store) (request : UpdateRequest)
    (searchers : String → Option (Searcher B)) (host : String) :
    Except Fault (String → Option (Searcher B)) :=
  match searchers host with
  | none => .error .rpcFailed
  | some searcher => do
    let searcher ← searcher.processUpdateRequest platform store request
    return Function.update searchers host (some searcher)

namespace System

/-- The next task of the queue runs, if there is one. -/
def runTask (rt : Runtime B Text Vec Dist) (platform : Platform B) (st : System B)
    (env : Env Time) : Except Fault (System B) :=
  match st.writer.callbackRunner with
  | [] => .ok st
  | task :: tasks => do
    let index := (st.writer.objects.get task.object).index
    let request := task.request index
    let store := task.transfer rt platform index st.store
    let searchers ← (env.listSearcherHosts task.indexId task.shardId).foldlM
      (updateIndex platform store request) st.searchers
    return { writer := { st.writer with callbackRunner := tasks }
             store := store
             searchers := searchers
             sent := st.sent ++ [⟨task, request⟩] }

end System

/-! ## Runs -/

inductive Event (Vec Time : Type)
  | write (env : Env Time) (request : WriteRequest Vec)
  | task (env : Env Time)

def Event.env : Event Vec Time → Env Time
  | .write env _ => env
  | .task env => env

namespace System

/-- The writer is constructed and looks at etcd for the first time; the searchers run with the
given configurations. -/
def start (rt : Runtime B Text Vec Dist) (indexesConfig : AList fun _ : String => IndexConfig)
    (searchersConfigs : String → Option (List ShardConfig)) (env : Env Time) : System B :=
  { writer := (Writer.create rt indexesConfig).updateIndexesState rt env
    store := ∅
    searchers := fun host => (searchersConfigs host).map (Searcher.create rt)
    sent := [] }

def exec [LT Time] [DecidableLT Time] (rt : Runtime B Text Vec Dist) (platform : Platform B)
    (st : System B) : Event Vec Time → Except Fault (System B)
  | .write env request => do
    let (writer, _) ← st.writer.processWriteRequest rt env request
    return { st with writer := writer }
  | .task env => st.runTask rt platform env

def run [LT Time] [DecidableLT Time] (rt : Runtime B Text Vec Dist) (platform : Platform B)
    (st : System B) (events : List (Event Vec Time)) : Except Fault (System B) :=
  events.foldlM (exec rt platform) st

end System

end Vecodex
