import Vecodex.App.Writer

/-!
# The registry (`app/src/EtcdClient.cpp`)

Searchers register in etcd under the shards they serve, and the coordinator keeps the average
response time of every shard there. All of it is in one flat table of keys:

    index_id/searchers/shard_id/hosts/searcher_addr
    index_id/searchers/shard_id/stats/average_response_time

The client asks etcd for all keys with a given prefix. The order of the answer is that of etcd,
about which nothing is assumed. Response times are stored as texts; what turns them into texts and
back is a parameter (`Doubles`).
-/

namespace Vecodex

open Lib

variable {Time : Type}

/-- The contents of etcd, and the order of its answers. -/
structure Etcd where
  contents : AList fun _ : String => String
  order : IterOrder (Σ _ : String, String)

/-- `0.0`, `std::to_string` and `std::stod`. -/
structure Doubles (Time : Type) where
  zero : Time
  toString : Time → String
  stod : String → Time

inductive EtcdFault
  /-- `std::runtime_error("Nesting level provided exceeded path length")`. -/
  | nestingLevel
  deriving DecidableEq, Repr

namespace Etcd

/-- `ls` and `keys` of etcd: the entries whose keys begin with the path. -/
def ls (e : Etcd) (path : String) : List (Σ _ : String, String) :=
  (e.order.arrange e.contents.entries).filter fun entry => path.toList <+: entry.1.toList

def addElement (e : Etcd) (path value : String) : Etcd :=
  { e with contents := e.contents.insert path value }

def removeElement (e : Etcd) (path : String) : Etcd := { e with contents := e.contents.erase path }

def getAllValues (e : Etcd) (path : String) : List String := (e.ls path).map fun entry => entry.2

/-- `boost::algorithm::split` at every slash. -/
def split (key : String) : List String := (key.toList.splitOn '/').map String.ofList

/-- The name at a nesting level of a key. -/
def nameAt (nestingLevel : Nat) (entry : Σ _ : String, String) : Except EtcdFault String :=
  match (split entry.1)[nestingLevel]? with
  | none => .error .nestingLevel
  | some name => .ok name

/-- The names at a nesting level of the keys, each once. -/
def listAllKeys (e : Etcd) (path : String) (nestingLevel : Nat) :
    Except EtcdFault (List String) := do
  let names ← (e.ls path).mapM (nameAt nestingLevel)
  return Writer.setOf names

def listSearcherHosts (e : Etcd) (indexId : String) (shardId : Option String) : List String :=
  let key := indexId ++ "/searchers"
  match shardId with
  | none => e.getAllValues key
  | some shardId => e.getAllValues (key ++ ("/" ++ shardId ++ "/hosts"))

def addSearcherHost (e : Etcd) (indexId shardId searcherAddr : String) : Etcd :=
  e.addElement (indexId ++ "/searchers/" ++ shardId ++ "/hosts/" ++ searcherAddr) searcherAddr

def removeSearcherHost (e : Etcd) (indexId shardId searcherAddr : String) : Etcd :=
  e.removeElement (indexId ++ "/searchers/" ++ shardId ++ "/hosts/" ++ searcherAddr)

def listShardIds (e : Etcd) (indexId : String) : Except EtcdFault (List String) :=
  e.listAllKeys (indexId ++ "/searchers") 2

def getSearcherAverageResponseTime (d : Doubles Time) (e : Etcd) (indexId shardId : String) :
    Time :=
  match e.getAllValues
    (indexId ++ "/searchers/" ++ shardId ++ "/stats/average_response_time") with
  | [] => d.zero
  | value :: _ => d.stod value

def updateAverageResponseTime (d : Doubles Time) (e : Etcd) (indexId shardId : String)
    (updatedValue : Time) : Etcd :=
  e.addElement (indexId ++ "/searchers/" ++ shardId ++ "/stats/average_response_time")
    (d.toString updatedValue)

end Etcd

/-! ## Histories -/

/-- A call that changes the registry. -/
inductive RegistryCall (Time : Type)
  | addSearcherHost (indexId shardId searcherAddr : String)
  | removeSearcherHost (indexId shardId searcherAddr : String)
  | updateAverageResponseTime (indexId shardId : String) (updatedValue : Time)

namespace Etcd

def exec (d : Doubles Time) (e : Etcd) : RegistryCall Time → Etcd
  | .addSearcherHost i s addr => e.addSearcherHost i s addr
  | .removeSearcherHost i s addr => e.removeSearcherHost i s addr
  | .updateAverageResponseTime i s time => e.updateAverageResponseTime d i s time

def run (d : Doubles Time) (e : Etcd) (calls : List (RegistryCall Time)) : Etcd :=
  calls.foldl (exec d) e

/-- An etcd without entries. -/
def empty (order : IterOrder (Σ _ : String, String)) : Etcd := { contents := ∅, order := order }

end Etcd

end Vecodex
