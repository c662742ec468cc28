import Vecodex.App.Coordinator
import Vecodex.App.System

/-!
# The answers of a searcher (`app/src/Searcher.cpp`)

A searcher answers a search request for one shard with the answer of the index of this shard. For a
request without a shard it asks all its shards of the index, in the order of its hash table, and
returns their answers one after the other. Nothing sorts them or cuts them to `k`.
-/

namespace Vecodex

open Lib

variable {B Vec Dist : Type} [LinearOrder Dist]

namespace Searcher

/-- The body of the loop over `shards[index_id]`. -/
def searchShard (rt : Runtime B Text Vec Dist) (request : SearchRequest Vec) (result : List Text)
    (shard : Σ _ : String, Index B Text) : Except Fault (List Text) := do
  let shardResult ← shard.2.search rt request.vectorData request.k.toNat
  return result ++ shardResult

/-- The ids of the response, for a request whose `k` is not negative. The tables and entries that
`operator[]` makes on the way are empty and null, as the missing ones are read here. -/
def processSearchRequest (rt : Runtime B Text Vec Dist)
    (order : IterOrder (Σ _ : String, Index B Text)) (s : Searcher B)
    (request : SearchRequest Vec) : Except Fault (List Text) :=
  match request.shardId with
  | some shardId =>
    match (s.table request.indexId).lookup shardId with
    | none => .error .nullIndex
    | some index => index.search rt request.vectorData request.k.toNat
  | none => (order.arrange (s.table request.indexId).entries).foldlM (searchShard rt request) []

end Searcher

end Vecodex
