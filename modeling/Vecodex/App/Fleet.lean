import Vecodex.App.Coordinator

/-!
# Searchers that come and go (`app/src/Searcher.cpp`, `app/src/Coordinator.cpp`)

The searchers and the coordinator share one etcd. A searcher registers in its constructor
(`SearcherImpl::Init`) and deregisters in its destructor (`SearcherImpl::GracefulShutdown`), under
one shard after the other. A searcher that ends in any other way, by an exception in the destructor
as well, deregisters under no further shard.

The coordinator handles one search request at a time. It lists the shards, reads the hosts of one
shard after the other, and asks one client after the other, looking at the counters of the shard
after each call. Between any two calls of etcd the others may make theirs, so every call of etcd is
an event here.

`log` is a history variable: the registrations, the deregistrations and the calls of searchers, in
the order they happened.
-/

namespace Vecodex

open Lib

variable {Vec Time : Type}

/-- A searcher by what it has to do at etcd; the names are those of the entries of `shards`, in the
order in which its tables are walked. -/
inductive Member
  /-- The searcher was constructed; `Init` has yet to register it under `todo`. -/
  | up (names todo : List (String × String))
  /-- `GracefulShutdown` has yet to deregister it under `todo`. -/
  | closing (todo : List (String × String))
  deriving DecidableEq, Repr

/-- What the handler of the search requests is at. -/
inductive SearchStage (Vec : Type)
  | idle
  /-- The hosts of these shards are still to be read. -/
  | reading (choices : Choices) (request : SearchRequest Vec) (shards : List String)
  /-- These clients are still to be asked, each with its shard. -/
  | asking (choices : Choices) (request : SearchRequest Vec) (calls : List (String × String))
    (searchResponses : List (List Text))

/-- What happened to a shard. A call of a searcher comes with the time of its response, none when it
failed. -/
inductive FleetEntry (Time : Type)
  | joined (indexId shardId address : String)
  | left (indexId shardId address : String)
  | asked (indexId shardId address : String) (respTime : Option Time)

structure Fleet (Vec Time : Type) where
  coordinator : Coordinator Time
  handler : SearchStage Vec
  members : String → Option Member
  answers : List (SearchRequest Vec × List Text)
  log : List (FleetEntry Time)

inductive FleetEvent (Vec Time : Type)
  | construct (address : String) (names : List (String × String))
  | destruct (address : String)
  | proceed (address : String)
  | crash (address : String)
  | beginSearch (choices : Choices) (request : SearchRequest Vec)
  | readShard
  | askNext (reply : Reply Time)
  | endSearch

namespace Fleet

/-- A coordinator before an empty etcd, and no searcher. -/
def start (order : IterOrder (Σ _ : String, String)) : Fleet Vec Time where
  coordinator := .create (.empty order)
  handler := .idle
  members := fun _ => none
  answers := []
  log := []

/-! ## The searchers -/

def setMember (address : String) (member : Option Member) (f : Fleet Vec Time) : Fleet Vec Time :=
  { f with members := Function.update f.members address member }

/-- A searcher calls etcd. -/
def callEtcd (d : Doubles Time) (call : RegistryCall Time) (entry : FleetEntry Time)
    (f : Fleet Vec Time) : Fleet Vec Time :=
  { f with
    coordinator := { f.coordinator with etcd := f.coordinator.etcd.exec d call }
    log := f.log ++ [entry] }

/-- The destructor runs once the constructor is through. -/
def destruct (address : String) (f : Fleet Vec Time) : Fleet Vec Time :=
  match f.members address with
  | some (.up names []) => f.setMember address (some (.closing names))
  | _ => f

/-- The next round of the loop of `Init` or `GracefulShutdown`. -/
def proceed (d : Doubles Time) (address : String) (f : Fleet Vec Time) : Fleet Vec Time :=
  match f.members address with
  | some (.up names ((i, s) :: todo)) =>
    (f.callEtcd d (.addSearcherHost i s address) (.joined i s address)).setMember address
      (some (.up names todo))
  | some (.closing ((i, s) :: todo)) =>
    (f.callEtcd d (.removeSearcherHost i s address) (.left i s address)).setMember address
      (some (.closing todo))
  | some (.closing []) => f.setMember address none
  | _ => f

/-! ## The coordinator -/

/-- `UpdateSearchersState` lists the shards of the request. A request waits while another is
handled. -/
def beginSearch (choices : Choices) (request : SearchRequest Vec) (f : Fleet Vec Time) :
    Fleet Vec Time :=
  match f.handler, Coordinator.requestedShards f.coordinator.etcd request with
  | .idle, .ok shards => { f with handler := .reading choices request shards }
  | _, _ => f

section Requests

variable [Zero Time] [Add Time] [Mul Time] [Div Time] [NatCast Time]

/-- The hosts of the next shard are read; after the last one the clients are lined up. -/
def readShard (f : Fleet Vec Time) : Fleet Vec Time :=
  match f.handler with
  | .reading choices request (s :: shards) =>
    { f with
      coordinator := Coordinator.updateWithIndexShardInfo request.indexId f.coordinator s
      handler := .reading choices request shards }
  | .reading choices request [] =>
    let entries := choices.shardOrder.arrange (f.coordinator.searchers request.indexId).entries
    let calls := entries.flatMap fun entry => entry.2.map fun address => (entry.1, address)
    { f with handler := .asking choices request calls [] }
  | _ => f

/-- The next client is asked. -/
def askNext (d : Doubles Time) (reply : Reply Time) (f : Fleet Vec Time) : Fleet Vec Time :=
  match f.handler with
  | .asking choices request ((s, a) :: calls) searchResponses =>
    let asked := Coordinator.askSearcher d (fun _ _ _ => reply) request s
      (f.coordinator, searchResponses) a
    { f with
      coordinator := asked.1
      handler := .asking choices request calls asked.2
      log := f.log ++ [.asked request.indexId s a (reply.answer.map fun _ => reply.respTime)] }
  | _ => f

/-- The client gets its answer. -/
def endSearch (f : Fleet Vec Time) : Fleet Vec Time :=
  match f.handler with
  | .asking choices request [] searchResponses =>
    { f with
      handler := .idle
      answers := f.answers ++ [(request, mergeSearcherAnswers choices.scoreOrder choices.sorting
        searchResponses (sizeT request.k))] }
  | _ => f

/-! ## Runs -/

def exec (d : Doubles Time) (f : Fleet Vec Time) : FleetEvent Vec Time → Fleet Vec Time
  | .construct address names => f.setMember address (some (.up names names))
  | .destruct address => f.destruct address
  | .proceed address => f.proceed d address
  | .crash address => f.setMember address none
  | .beginSearch choices request => f.beginSearch choices request
  | .readShard => f.readShard
  | .askNext reply => f.askNext d reply
  | .endSearch => f.endSearch

def run (d : Doubles Time) (f : Fleet Vec Time) (events : List (FleetEvent Vec Time)) :
    Fleet Vec Time :=
  events.foldl (exec d) f

end Requests

end Fleet

end Vecodex
