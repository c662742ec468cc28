import Vecodex.App.Archive
import Vecodex.App.Process

/-!
# A deployment

One writer, one coordinator, searchers at their addresses and the object store, as they run
together. Clients send write requests to the writer and search requests to the coordinator.

The processes take turns at any point between two calls that leave a process. Requests and tasks of
the writer exclude each other (`runner_lock`); so a write request is one event, and a task, once
begun, is the only thing the writer does until its last remote call. The requests of the coordinator
exclude each other as well (`mutex_`): a search begins, asks one searcher after the other, and ends.

Everything between the processes may fail. A put or a deletion of an object may fail, which a task
does not notice. A remote call may be lost on its way or on its way back; the process of the writer
does not survive it, the coordinator counts it as an error. Searchers come and go, and each handles
one request at a time; one that starts finds a working directory with any files in it. The writer
may be restarted, and its indexes are empty then. What etcd answers is not restricted: its answers
to the writer come with the events, and the etcd of the coordinator may be changed by others at any
time. But it does answer: an error of etcd is not among the events.

`accepted` and `answers` are history variables: the documents the writer has taken, each with the
index the client named, and the searches that have ended.
-/

namespace Vecodex

open Lib

variable {B Vec Dist Time : Type}

/-- What becomes of a remote call. -/
inductive Carriage
  /-- The host does not get it. -/
  | lost
  /-- The host gets it, and its answer does not come back. -/
  | unanswered
  | answered
  deriving DecidableEq, Repr

/-- What the thread of `callback_runner` is at. -/
inductive Runner
  | idle
  /-- It has these operations on the object store still to do. -/
  | storing (operations : List StoreOp) (task : Task) (request : UpdateRequest)
  /-- It has these hosts still to call. -/
  | calling (request : UpdateRequest) (hosts : List String)

/-- A search request that the coordinator is handling. -/
structure SearchInProgress (Vec : Type) where
  choices : Choices
  request : SearchRequest Vec
  /-- The calls still to make, each of a shard and an address. -/
  calls : List (String × String)
  searchResponses : List (List Text)

structure World (B Vec Time : Type) where
  writer : Writer B
  /-- What ended the process of the writer, if something did. -/
  writerEnded : Option Fault
  runner : Runner
  store : Store
  /-- The processes of the searchers, by their addresses. -/
  searchers : String → Option (SearcherProcess B)
  coordinator : Coordinator Time
  search : Option (SearchInProgress Vec)
  accepted : List (String × Text)
  answers : List (SearchRequest Vec × List Text)

namespace World

/-- A deployment whose writer has just looked at etcd for the first time. -/
def start (rt : Runtime B Text Vec Dist) (indexesConfig : AList fun _ : String => IndexConfig)
    (env : Env Time) (e : Etcd) : World B Vec Time where
  writer := (Writer.create rt indexesConfig).updateIndexesState rt env
  writerEnded := none
  runner := .idle
  store := ∅
  searchers := fun _ => none
  coordinator := .create e
  search := none
  accepted := []
  answers := []

/-! ## The writer -/

/-- The document that the client of the request may expect to find, with the index it named. -/
def accepts (request : WriteRequest Vec) : Status → List (String × Text)
  | .invalidArgument _ => []
  | .ok =>
    match request.attributes.lookup "index-id" with
    | some indexId => if "delete" ∉ request.attributes then [(indexId, request.id)] else []
    | none => []

/-- A request waits while a task is running. -/
def write [LT Time] [DecidableLT Time] (rt : Runtime B Text Vec Dist) (env : Env Time)
    (request : WriteRequest Vec) (s : World B Vec Time) : World B Vec Time :=
  match s.writerEnded, s.runner with
  | none, .idle =>
    match s.writer.processWriteRequest rt env request with
    | .error e => { s with writerEnded := some e }
    | .ok (writer, status) =>
      { s with writer := writer, accepted := s.accepted ++ accepts request status }
  | _, _ => s

/-- The next task of the queue begins. -/
def beginTask (rt : Runtime B Text Vec Dist) (platform : Platform B) (s : World B Vec Time) :
    World B Vec Time :=
  match s.writerEnded, s.runner, s.writer.callbackRunner with
  | none, .idle, task :: tasks =>
    let index := (s.writer.objects.get task.object).index
    { s with
      writer := { s.writer with callbackRunner := tasks }
      runner := .storing (task.operations rt platform index fun _ => true) task
        (task.request index) }
  | _, _, _ => s

/-- The next operation on the object store succeeds or fails. -/
def storeNext (ok : Bool) (s : World B Vec Time) : World B Vec Time :=
  match s.writerEnded, s.runner with
  | none, .storing (operation :: operations) task request =>
    { s with
      store := if ok then operation.apply s.store else s.store
      runner := .storing operations task request }
  | _, _ => s

/-- etcd lists the searchers of the shard. -/
def listHosts (env : Env Time) (s : World B Vec Time) : World B Vec Time :=
  match s.writerEnded, s.runner with
  | none, .storing [] task request =>
    { s with runner := .calling request (env.listSearcherHosts task.indexId task.shardId) }
  | _, _ => s

section Calls

variable [LinearOrder Dist]

/-- The searchers after a call of one of them. -/
def deliver (rt : Runtime B Text Vec Dist) (platform : Platform B) (order : IterOrder String)
    (carriage : Carriage) (host : String) (call : SearcherCall Vec)
    (searchers : String → Option (SearcherProcess B)) : String → Option (SearcherProcess B) :=
  if carriage = .lost then searchers
  else Function.update searchers host ((searchers host).map fun p =>
    p.serve rt platform order call)

/-- What the caller gets. Every status but OK is the same to it. -/
def reply {α : Type} (carriage : Carriage) (host : String)
    (handler : SearcherProcess B → Except Fault α)
    (searchers : String → Option (SearcherProcess B)) : Except Fault α :=
  match carriage, searchers host with
  | .answered, some p =>
    match p.ended, handler p with
    | none, .ok answer => .ok answer
    | _, _ => .error .rpcFailed
  | _, _ => .error .rpcFailed

/-- `updateIndex` of the client, for the next host. An exception ends the process. -/
def updateNext (rt : Runtime B Text Vec Dist) (platform : Platform B) (order : IterOrder String)
    (carriage : Carriage) (s : World B Vec Time) : World B Vec Time :=
  match s.writerEnded, s.runner with
  | none, .calling _ [] => { s with runner := .idle }
  | none, .calling request (host :: hosts) =>
    { s with
      writerEnded :=
        match reply carriage host (fun p => (p.processUpdateRequest platform s.store request).1)
          s.searchers with
        | .ok _ => none
        | .error e => some e
      runner := .calling request hosts
      searchers := deliver rt platform order carriage host (.update s.store request)
        s.searchers }
  | _, _ => s

/-! ## The coordinator -/

section Search

variable [Zero Time] [Add Time] [Mul Time] [Div Time] [NatCast Time]

/-- The coordinator reads the hosts from etcd; a request waits while another is handled. -/
def beginSearch (choices : Choices) (request : SearchRequest Vec) (s : World B Vec Time) :
    World B Vec Time :=
  match s.search, s.coordinator.updateSearchersState request with
  | none, .ok c =>
    let entries := choices.shardOrder.arrange (c.searchers request.indexId).entries
    { s with
      coordinator := c
      search := some
        { choices := choices
          request := request
          calls := entries.flatMap fun entry => entry.2.map fun address => (entry.1, address)
          searchResponses := [] } }
  | _, _ => s

/-- The next searcher is asked. -/
def askNext (rt : Runtime B Text Vec Dist) (platform : Platform B) (order : IterOrder String)
    (d : Doubles Time) (carriage : Carriage) (respTime : Time) (s : World B Vec Time) :
    World B Vec Time :=
  match s.search with
  | some ⟨choices, request, (shardId, address) :: calls, searchResponses⟩ =>
    let answer := reply carriage address (fun p => (p.processSearchRequest rt order request).1)
      s.searchers
    let asked := Coordinator.askSearcher d (fun _ _ _ => ⟨answer.toOption, respTime⟩) request
      shardId (s.coordinator, searchResponses) address
    { s with
      searchers := deliver rt platform order carriage address (.search request) s.searchers
      coordinator := asked.1
      search := some ⟨choices, request, calls, asked.2⟩ }
  | _ => s

/-- All searchers have been asked, and the client gets its answer. -/
def endSearch (s : World B Vec Time) : World B Vec Time :=
  match s.search with
  | some ⟨choices, request, [], searchResponses⟩ =>
    { s with
      search := none
      answers := s.answers ++ [(request, mergeSearcherAnswers choices.scoreOrder choices.sorting
        searchResponses (sizeT request.k))] }
  | _ => s

end Search

end Calls

end World

/-! ## Runs -/

inductive WorldEvent (Vec Time : Type)
  | write (env : Env Time) (request : WriteRequest Vec)
  | beginTask
  | storeNext (ok : Bool)
  | listHosts (env : Env Time)
  | updateNext (carriage : Carriage)
  /-- The process of the writer is gone, and a new one looks at etcd. -/
  | restartWriter (indexesConfig : AList fun _ : String => IndexConfig) (env : Env Time)
  | startSearcher (address : String) (directory : Nat → Option Bytes)
    (shardsConfigs : List ShardConfig)
  | stopSearcher (address : String)
  | etcdChanged (e : Etcd)
  | beginSearch (choices : Choices) (request : SearchRequest Vec)
  | askNext (carriage : Carriage) (respTime : Time)
  | endSearch

namespace World

variable [LinearOrder Dist] [LT Time] [DecidableLT Time]
variable [Zero Time] [Add Time] [Mul Time] [Div Time] [NatCast Time]

def exec (rt : Runtime B Text Vec Dist) (platform : Platform B) (order : IterOrder String)
    (d : Doubles Time) (s : World B Vec Time) : WorldEvent Vec Time → World B Vec Time
  | .write env request => s.write rt env request
  | .beginTask => s.beginTask rt platform
  | .storeNext ok => s.storeNext ok
  | .listHosts env => s.listHosts env
  | .updateNext carriage => s.updateNext rt platform order carriage
  | .restartWriter indexesConfig env =>
    { s with
      writer := (Writer.create rt indexesConfig).updateIndexesState rt env
      writerEnded := none
      runner := .idle }
  | .startSearcher address directory shardsConfigs =>
    { s with
      searchers := Function.update s.searchers address
        (some (.create rt directory shardsConfigs)) }
  | .stopSearcher address => { s with searchers := Function.update s.searchers address none }
  | .etcdChanged e => { s with coordinator := { s.coordinator with etcd := e } }
  | .beginSearch choices request => s.beginSearch choices request
  | .askNext carriage respTime => s.askNext rt platform order d carriage respTime
  | .endSearch => s.endSearch

def run (rt : Runtime B Text Vec Dist) (platform : Platform B) (order : IterOrder String)
    (d : Doubles Time) (s : World B Vec Time) (events : List (WorldEvent Vec Time)) :
    World B Vec Time :=
  events.foldl (exec rt platform order d) s

end World

end Vecodex
