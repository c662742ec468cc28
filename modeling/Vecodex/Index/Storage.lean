import Vecodex.Index.Segment
import Vecodex.Lib.Grid

/-!
# The segment storage (`include/IIndex.h`)

An index owns its segments through shared pointers: `segments_` is the list a search walks,
`storage_.levels` arranges the same segments by size for merging, and `last_` is the open
segment that takes new vectors. The segments are mutable objects, so the index carries a heap
and the lists hold pointers into it.

`SegmentStorage::add` and `SegmentStorage::merge` are translated loop by loop. A merge walks the
levels upward; in one level it joins neighbours while their sizes fit the remaining amount
(`mergePair`), then updates `segments_` and reports to the callback (`finishPass`). The left
neighbour of a joined pair survives in place, under a new id, one level up.

`calls` records the calls of the update callback, each with the ids its segments had during the
call. `trace` is a history variable: what the merges joined and which references they dropped
from `segments_`. The code has no such field and no operation reads it.
-/

namespace Vecodex

open Lib

variable {B ID Vec Dist : Type} [DecidableEq ID]

/-- The constructor arguments of an index. -/
structure IndexConfig where
  segmentThreshold : Nat
  threshold_pos : 0 < segmentThreshold
  threshold_int : segmentThreshold < 2 ^ 31
  enableMerge : Bool
  kind : BaseKind

/-- One call of the update callback: the erased ids, the inserted segments, and the ids these
segments carry during the call. -/
structure Call where
  erased : List Nat
  inserted : List Nat
  seen : List Nat
  deriving DecidableEq, Repr

/-- What a merge did: joined two segments, given as they were before; or dropped a reference to
`p` from `segments_`, which keeps `left`, while the levels hold `current`. -/
inductive MergeEvent (B ID : Type)
  | joined (survivor absorbed : Segment B ID)
  | dropped (p : Nat) (left current : List Nat)

structure Index (B ID : Type) where
  config : IndexConfig
  heap : Heap (Segment B ID)
  levels : Grid Nat
  counter : Nat
  segments : List Nat
  last : Nat
  /-- Whether an update callback is set. -/
  callback : Bool
  /-- How many values the process has taken from `rand()`. -/
  draws : Nat
  calls : List Call
  trace : List (MergeEvent B ID)

namespace Index

/-- The segment behind a pointer. -/
def seg (idx : Index B ID) (p : Nat) : Segment B ID := idx.heap.get p

/-- `getID()` of the segment behind a pointer. -/
def idOf (idx : Index B ID) (p : Nat) : Nat := (idx.seg p).segId

/-- A segment from the factory: an empty wrapper under the next value of `rand()`. -/
def freshSegment (rt : Runtime B ID Vec Dist) (config : IndexConfig) (draws : Nat) :
    Segment B ID :=
  { segId := rt.rand draws, index := FaissIndex.create rt config.kind }

/-- The call of the update callback, when there is one. -/
def notify (idx : Index B ID) (erased inserted : List Nat) : Index B ID :=
  if idx.callback then
    { idx with calls := idx.calls ++ [⟨erased, inserted, inserted.map idx.idOf⟩] }
  else idx

/-! ## `SegmentStorage::add` -/

/-- The search for a level: grow `levels` while `1ll << i` is below the size. The shift is
defined for 64 values of `i`. -/
def levelLoop (size : Nat) : Nat → Nat → Grid Nat → Except Fault (Nat × Grid Nat)
  | 0, _, _ => .error .badShift
  | fuel + 1, i, levels =>
    if 2 ^ i < size then
      levelLoop size fuel (i + 1) (if i = levels.length then levels ++ [[]] else levels)
    else .ok (i, levels)

def storageAdd (idx : Index B ID) (p : Nat) : Except Fault (Index B ID) := do
  let (i, levels) ← levelLoop (idx.seg p).size 64 0 idx.levels
  return { idx with counter := sizeT (idx.counter + 1), levels := levels.push (i - 1) p }

/-! ## `SegmentStorage::merge` -/

end Index

/-- The local state of a merge. -/
structure MergeState (B ID : Type) where
  index : Index B ID
  amount : Nat
  erased : List Nat
  inserted : List Nat

namespace Index

/-- The body of the inner loop, for the cells `j` and `j + 1` of level `i`. -/
def mergePair (rt : Runtime B ID Vec Dist) (i : Nat) (s : MergeState B ID) (j : Nat) :
    Except Fault (MergeState B ID) :=
  match s.index.levels.cell i j, s.index.levels.cell i (j + 1) with
  | some a, some b =>
    let need := sizeT ((s.index.seg a).size + (s.index.seg b).size)
    if need > s.amount then .ok s
    else do
      let merged ← (s.index.seg a).mergeSegment rt (s.index.seg b)
      return {
        index := { s.index with
          heap := s.index.heap.set a { merged with segId := rt.rand s.index.draws }
          draws := s.index.draws + 1
          levels := s.index.levels.promote i j a
          counter := sizeT (s.index.counter - 1)
          trace := s.index.trace ++ [.joined (s.index.seg a) (s.index.seg b)] }
        amount := s.amount - need
        erased := s.erased ++ [s.index.idOf b, s.index.idOf a]
        inserted := s.inserted ++ [a] }
  | _, _ => .ok s

/-- The inner loop over level `i`; joined cells stay in place as nulls, so the number of cells
does not change while it runs. -/
def joinPairs (rt : Runtime B ID Vec Dist) (i : Nat) (s : MergeState B ID) :
    Except Fault (MergeState B ID) :=
  (List.range ((s.index.levels[i]?.getD []).length - 1)).foldlM (mergePair rt i) s

/-- The removal of one erased id: the first segment of `segments_` that carries it, if any. -/
def dropId (idx : Index B ID) (id : Nat) : Index B ID :=
  match idx.segments.find? fun p => idx.idOf p = id with
  | none => idx
  | some p =>
    { idx with
      segments := idx.segments.eraseP fun p => idx.idOf p = id
      trace := idx.trace ++
        [.dropped p (idx.segments.eraseP fun p => idx.idOf p = id) idx.levels.items] }

/-- The end of a round of the outer loop. -/
def finishPass (idx : Index B ID) (erased inserted : List Nat) : Index B ID :=
  let idx := erased.foldl dropId { idx with segments := idx.segments ++ inserted }
  if !erased.isEmpty && !inserted.isEmpty then idx.notify erased inserted else idx

/-- The outer loop from level `i` on. -/
def mergeLoop (rt : Runtime B ID Vec Dist) : Nat → Nat → MergeState B ID →
    Except Fault (MergeState B ID)
  | 0, i, s => if s.amount > 0 ∧ i < s.index.levels.length then .error .outOfFuel else .ok s
  | fuel + 1, i, s =>
    if s.amount > 0 ∧ i < s.index.levels.length then do
      let s ← joinPairs rt i s
      mergeLoop rt fuel (i + 1) { s with
        index := s.index.finishPass s.erased s.inserted
        erased := []
        inserted := [] }
    else .ok s

/-- `merge`. The outer loop gets one round for every cell and every level at its start. -/
def merge (rt : Runtime B ID Vec Dist) (idx : Index B ID) (amount : Nat) :
    Except Fault (Index B ID) := do
  let s ← mergeLoop rt (idx.levels.weight 0) 0
    { index := idx, amount := amount, erased := [], inserted := [] }
  return { s.index with levels := s.index.levels.compact }

end Index

end Vecodex
