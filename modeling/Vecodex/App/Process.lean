import Vecodex.App.Answers

/-!
# The searcher as a process (`app/src/Searcher.cpp`)

`Searcher` has the shards of a searcher, and a request that fails leaves nothing of it.
`SearcherProcess` keeps what a failed request leaves behind. The handlers look an index up with
`shards[index_id][shard_id]`; `operator[]` makes a missing table, and in it a missing entry with a
null pointer, before the call through the entry ends the process.

A segment file goes through the working directory under the decimal digits of the segment id.
`getObject` writes it there and reports a failure by a value nobody looks at; the file is removed
after the segment was pushed. So a file that an earlier request left behind is read when the object
store does not deliver one.

An exception that leaves a handler reaches the server, which answers with an error status and goes
on. Every other fault ends the process. `used` is a history variable: the entries through which a
call was made.
-/

namespace Vecodex

open Lib

variable {B Vec Dist : Type}

/-- The fault is a C++ exception. -/
def Fault.isException : Fault → Bool
  | .emptyBatch | .outOfRange | .unreadable | .rpcFailed => true
  | .badCast | .badShift | .outOfFuel | .nullIndex | .missingObject => false

structure SearcherProcess (B : Type) where
  /-- The entries are pointers, null ones included. -/
  shards : AList fun _ : String => AList fun _ : String => Option (Index B Text)
  /-- The files of the working directory that are named by a segment id. -/
  files : Nat → Option Bytes
  used : List (String × String)
  /-- The fault that ended the process, if one did. -/
  ended : Option Fault
  /-- How many values the process has taken from `rand()`. -/
  draws : Nat

namespace SearcherProcess

def table (p : SearcherProcess B) (indexId : String) :
    AList fun _ : String => Option (Index B Text) :=
  (p.shards.lookup indexId).getD ∅

/-- The table of the index has an entry of the name. -/
def Has (p : SearcherProcess B) (indexId shardId : String) : Prop := shardId ∈ p.table indexId

instance (p : SearcherProcess B) (indexId shardId : String) : Decidable (p.Has indexId shardId) :=
  inferInstanceAs (Decidable (shardId ∈ p.table indexId))

/-- The index behind an entry; null and missing entries have none. -/
def entry (p : SearcherProcess B) (indexId shardId : String) : Option (Index B Text) :=
  ((p.table indexId).lookup shardId).join

def setEntry (p : SearcherProcess B) (indexId shardId : String) (index : Option (Index B Text)) :
    SearcherProcess B :=
  { p with shards := p.shards.insert indexId ((p.table indexId).insert shardId index) }

/-- What `shards[index_id]` makes. -/
def subscriptTable (p : SearcherProcess B) (indexId : String) : SearcherProcess B :=
  { p with shards := p.shards.insert indexId (p.table indexId) }

/-- What `shards[index_id][shard_id]` makes. -/
def subscript (p : SearcherProcess B) (indexId shardId : String) : SearcherProcess B :=
  if p.Has indexId shardId then p.subscriptTable indexId else p.setEntry indexId shardId none

def use (p : SearcherProcess B) (indexId shardId : String) : SearcherProcess B :=
  { p with used := p.used ++ [(indexId, shardId)] }

/-! ## The constructor -/

def addShard (rt : Runtime B Text Vec Dist) (p : SearcherProcess B) (item : ShardConfig) :
    SearcherProcess B :=
  { p.setEntry item.indexId item.shardId (some (Index.create rt item.config false p.draws)) with
    draws := p.draws + 1 }

/-- The process starts in a working directory as an earlier one may have left it. -/
def create (rt : Runtime B Text Vec Dist) (directory : Nat → Option Bytes)
    (shardsConfigs : List ShardConfig) : SearcherProcess B :=
  shardsConfigs.foldl (addShard rt)
    { shards := ∅, files := directory, used := [], ended := none, draws := 0 }

/-! ## `ProcessUpdateRequest` -/

/-- A call on the index `shards[index_id][shard_id]`. -/
def call (p : SearcherProcess B) (indexId shardId : String)
    (f : Index B Text → Except Fault (Index B Text)) : Except Fault Unit × SearcherProcess B :=
  let p := (p.subscript indexId shardId).use indexId shardId
  match p.entry indexId shardId with
  | none => (.error .nullIndex, p)
  | some index =>
    match f index with
    | .error e => (.error e, p)
    | .ok index => (.ok (), p.setEntry indexId shardId (some index))

/-- The file that is opened for a segment: the one the object store delivers, or one that is
there already. -/
def fetched (platform : Platform B) (store : Store) (indexId : String) (files : Nat → Option Bytes)
    (id : Nat) : Option Bytes :=
  (store.lookup (platform.hash indexId, id)).or (files id)

/-- `getObject`. -/
def getObject (platform : Platform B) (store : Store) (indexId : String) (p : SearcherProcess B)
    (id : Nat) : SearcherProcess B :=
  { p with files := Function.update p.files id (fetched platform store indexId p.files id) }

/-- `pushSegment` of what `DeserealizeSegment` returned; a null segment ends the process. -/
def pushFetched (segment : Option (Segment B Text)) (index : Index B Text) :
    Except Fault (Index B Text) :=
  match segment with
  | none => .error .nullIndex
  | some segment => index.pushSegment segment

/-- The body of the first loop. -/
def pushAdded (platform : Platform B) (store : Store) (request : UpdateRequest)
    (p : SearcherProcess B) (addedId : Nat) : Except Fault Unit × SearcherProcess B :=
  let p := p.getObject platform store request.indexId addedId
  match p.files addedId with
  | none => (.error .missingObject, p)
  | some file =>
    match deserealizeSegment platform.toFiles file with
    | .error e => (.error e, p)
    | .ok (segment, _) =>
      match p.call request.indexId request.shardId (pushFetched segment) with
      | (.error e, p) => (.error e, p)
      | (.ok (), p) => (.ok (), { p with files := Function.update p.files addedId none })

/-- The body of the second loop. -/
def eraseDeleted (request : UpdateRequest) (p : SearcherProcess B) (deletedId : Nat) :
    Except Fault Unit × SearcherProcess B :=
  p.call request.indexId request.shardId fun index => .ok (index.eraseSegment deletedId).2

def processUpdateRequest (platform : Platform B) (store : Store) (p : SearcherProcess B)
    (request : UpdateRequest) : Except Fault Unit × SearcherProcess B :=
  match foldStop (pushAdded platform store request) request.added p with
  | (.error e, p) => (.error e, p)
  | (.ok (), p) => foldStop (eraseDeleted request) request.deleted p

/-! ## `ProcessSearchRequest` -/

variable [LinearOrder Dist]

/-- The search through one entry. -/
def searchEntry (rt : Runtime B Text Vec Dist) (request : SearchRequest Vec)
    (p : SearcherProcess B) (shardId : String) : Except Fault (List Text) × SearcherProcess B :=
  let p := p.use request.indexId shardId
  match p.entry request.indexId shardId with
  | none => (.error .nullIndex, p)
  | some index => (index.search rt request.vectorData request.k.toNat, p)

/-- The loop over the entries of `shards[index_id]`. -/
def searchEntries (rt : Runtime B Text Vec Dist) (request : SearchRequest Vec) :
    List String → List Text → SearcherProcess B → Except Fault (List Text) × SearcherProcess B
  | [], result, p => (.ok result, p)
  | shardId :: shardIds, result, p =>
    match p.searchEntry rt request shardId with
    | (.error e, p) => (.error e, p)
    | (.ok shardResult, p) => searchEntries rt request shardIds (result ++ shardResult) p

/-- The ids of the response, for a request whose `k` is not negative. -/
def processSearchRequest (rt : Runtime B Text Vec Dist) (order : IterOrder String)
    (p : SearcherProcess B) (request : SearchRequest Vec) :
    Except Fault (List Text) × SearcherProcess B :=
  match request.shardId with
  | some shardId =>
    (p.subscript request.indexId shardId).searchEntry rt request shardId
  | none =>
    let p := p.subscriptTable request.indexId
    searchEntries rt request (order.arrange (p.table request.indexId).keys) [] p

end SearcherProcess

/-! ## Runs -/

/-- A request to a searcher; an update finds the object store in some state. -/
inductive SearcherCall (Vec : Type)
  | search (request : SearchRequest Vec)
  | update (store : Store) (request : UpdateRequest)

namespace SearcherProcess

variable [LinearOrder Dist]

/-- The process after a handler: an exception is answered, another fault ends the process. -/
def answered {α : Type} (result : Except Fault α × SearcherProcess B) : SearcherProcess B :=
  match result.1 with
  | .ok _ => result.2
  | .error e => if e.isException then result.2 else { result.2 with ended := some e }

def serve (rt : Runtime B Text Vec Dist) (platform : Platform B) (order : IterOrder String)
    (p : SearcherProcess B) (call : SearcherCall Vec) : SearcherProcess B :=
  match p.ended with
  | some _ => p
  | none =>
    match call with
    | .search request => answered (p.processSearchRequest rt order request)
    | .update store request => answered (p.processUpdateRequest platform store request)

def run (rt : Runtime B Text Vec Dist) (platform : Platform B) (order : IterOrder String)
    (p : SearcherProcess B) (calls : List (SearcherCall Vec)) : SearcherProcess B :=
  calls.foldl (serve rt platform order) p

end SearcherProcess

end Vecodex
