import Vecodex.Index.Storage
import Vecodex.Lib.TopK

/-!
# The index (`include/Index.h`)

`add` fills the open segment in batches, seals it whenever its size reaches the threshold, and
then merges. `search` asks every segment of `segments_` and the open one for its best `k` and
keeps the best `k` of all answers in an ordered set. `erase` marks in every segment.

A history is a list of calls (`Op`), run by `run` from a freshly constructed index. A call that
does not return ends the run.
-/

namespace Vecodex

open Lib

variable {B ID Vec Dist : Type} [DecidableEq ID]

namespace Index

/-- The constructor: an index whose process has taken `draws` values from `rand()`. -/
def create (rt : Runtime B ID Vec Dist) (config : IndexConfig) (callback : Bool) (draws : Nat) :
    Index B ID :=
  { config := config
    heap := (Heap.empty (freshSegment rt config draws)).alloc (freshSegment rt config draws)
    levels := []
    counter := 0
    segments := []
    last := 0
    callback := callback
    draws := draws + 1
    calls := []
    trace := [] }

/-! ## `add` -/

/-- `last_` joins `segments_`, and the factory makes the next open segment. -/
def openNext (rt : Runtime B ID Vec Dist) (idx : Index B ID) : Index B ID :=
  { idx with
    segments := idx.segments ++ [idx.last]
    heap := idx.heap.alloc (freshSegment rt idx.config idx.draws)
    last := idx.heap.next
    draws := idx.draws + 1 }

/-- The open segment has reached the threshold. -/
def sealLast (rt : Runtime B ID Vec Dist) (idx : Index B ID) : Except Fault (Index B ID) := do
  let idx ← idx.storageAdd idx.last
  return idx.openNext rt

/-- `addVectorBatch` on the open segment. -/
def appendLast (rt : Runtime B ID Vec Dist) (idx : Index B ID) (rows : List (ID × Vec)) :
    Index B ID :=
  { idx with heap := idx.heap.modify idx.last fun s => s.addVectorBatch rt rows }

/-- The size of the next batch when `n` rows remain. -/
def batchSize (idx : Index B ID) (n : Nat) : Nat :=
  min n (sizeT (idx.config.segmentThreshold - (idx.seg idx.last).size))

/-- The loop of `add`. It takes at least one row in every round, so the number of rows bounds
the number of rounds. -/
def addLoop (rt : Runtime B ID Vec Dist) : Nat → Index B ID → List Nat → List (ID × Vec) →
    Except Fault (Index B ID × List Nat)
  | _, idx, inserted, [] => .ok (idx, inserted)
  | 0, _, _, _ :: _ => .error .outOfFuel
  | fuel + 1, idx, inserted, row :: rows =>
    let batch := idx.batchSize (row :: rows).length
    if batch = 0 then .error .emptyBatch
    else
      let filled := idx.appendLast rt ((row :: rows).take batch)
      if (filled.seg filled.last).size = filled.config.segmentThreshold then do
        let next ← filled.sealLast rt
        addLoop rt fuel next (inserted ++ [filled.last]) ((row :: rows).drop batch)
      else addLoop rt fuel filled inserted ((row :: rows).drop batch)

/-- `add` up to the point where it comes to merge. -/
def fill (rt : Runtime B ID Vec Dist) (idx : Index B ID) (rows : List (ID × Vec)) :
    Except Fault (Index B ID) := do
  let (idx, inserted) ← addLoop rt rows.length idx [] rows
  return if !inserted.isEmpty then idx.notify [] inserted else idx

def add (rt : Runtime B ID Vec Dist) (idx : Index B ID) (rows : List (ID × Vec)) :
    Except Fault (Index B ID) := do
  let idx ← idx.fill rt rows
  if idx.config.enableMerge then idx.merge rt 200 else return idx

/-! ## `search` -/

section Search

variable [LinearOrder Dist] [LinearOrder ID]

/-- One segment's answers, kept in the ordered set of at most `k` results. -/
def collect (rt : Runtime B ID Vec Dist) (idx : Index B ID) (q : Vec) (k : Nat)
    (kthStat : List (Dist ×ₗ ID)) (p : Nat) : Except Fault (List (Dist ×ₗ ID)) := do
  let results ← (idx.seg p).searchQuery rt q k
  return (rt.resOrder.arrange results.entries).foldl
    (fun stat e => keep k stat (toLex (e.2, e.1))) kthStat

def search (rt : Runtime B ID Vec Dist) (idx : Index B ID) (q : Vec) (k : Nat) :
    Except Fault (List ID) := do
  let kthStat ← idx.segments.foldlM (idx.collect rt q k) []
  let kthStat ← idx.collect rt q k kthStat idx.last
  return kthStat.map fun r => (ofLex r).2

end Search

/-! ## `erase`, `pushSegment` and `eraseSegment` -/

def erase (idx : Index B ID) (ids : List ID) : Index B ID :=
  let heap := idx.segments.foldl (fun heap p => heap.modify p fun s => s.deleteBatch ids) idx.heap
  { idx with heap := heap.modify idx.last fun s => s.deleteBatch ids }

/-- `pushSegment`, of a segment object no index holds yet. -/
def pushSegment (idx : Index B ID) (segment : Segment B ID) : Except Fault (Index B ID) := do
  let p := idx.heap.next
  let idx ← ({ idx with heap := idx.heap.alloc segment } : Index B ID).storageAdd p
  return ({ idx with segments := idx.segments ++ [p] } : Index B ID).notify [] [p]

/-- `eraseSegment` looks for the segment and reports whether it is there. -/
def eraseSegment (idx : Index B ID) (id : Nat) : Bool × Index B ID :=
  match idx.segments.find? fun p => idx.idOf p = id with
  | none => (false, idx)
  | some _ => (true, idx)

/-- `size()`. -/
def size (idx : Index B ID) : Nat := idx.segments.length

end Index

/-! ## Histories -/

/-- A call on an index. A pushed segment is one some process built, so it is well formed. -/
inductive Op (B ID Vec : Type) [DecidableEq ID]
  | add (rows : List (ID × Vec))
  | erase (ids : List ID)
  | push (segment : Segment B ID) (wf : segment.index.Wf)
  | eraseSegment (id : Nat)

/-- A call that changes documents. -/
inductive Edit (ID Vec : Type)
  | add (rows : List (ID × Vec))
  | erase (ids : List ID)
  deriving DecidableEq, Repr

def Edit.op : Edit ID Vec → Op B ID Vec
  | .add rows => .add rows
  | .erase ids => .erase ids

namespace Index

def exec (rt : Runtime B ID Vec Dist) (idx : Index B ID) : Op B ID Vec → Except Fault (Index B ID)
  | .add rows => idx.add rt rows
  | .erase ids => .ok (idx.erase ids)
  | .push segment _ => idx.pushSegment segment
  | .eraseSegment id => .ok (idx.eraseSegment id).2

/-- The calls of a history, one after the other. -/
def run (rt : Runtime B ID Vec Dist) (idx : Index B ID) (ops : List (Op B ID Vec)) :
    Except Fault (Index B ID) :=
  ops.foldlM (exec rt) idx

end Index

end Vecodex
