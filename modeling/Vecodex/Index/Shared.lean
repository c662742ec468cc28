import Vecodex.Index.Index
import Vecodex.Lib.ReadersWriter

/-!
# An index that several threads call (`index/include/Index.h`)

`add`, `erase`, `pushSegment` and `eraseSegment` hold `segments_m_` exclusively from their first
line to their last, and `search` holds it shared. Here each of them is a sequence of accesses to
the members of the index: one for every statement, or round of a loop, that reads or writes them.
The locals of a call are arguments of what is left of it.

An exception leaves the members as far as the call had changed them.
-/

namespace Vecodex

open Lib

variable {B ID Vec Dist : Type} [DecidableEq ID]

namespace Index

/-- One access that cannot fail. -/
def write (f : Index B ID → Index B ID) : Proc (Index B ID) (Except Fault Unit) :=
  .attempt fun idx => .ok ((), f idx)

/-! ## `add` -/

/-- `batch`, which may not be zero. -/
def takeBatch (n : Nat) : Proc (Index B ID) (Except Fault Nat) :=
  .read fun idx => if idx.batchSize n = 0 then .error .emptyBatch else .ok (idx.batchSize n)

/-- Whether `last_` has reached the threshold. -/
def isFull : Proc (Index B ID) (Except Fault Bool) :=
  .read fun idx => .ok (decide ((idx.seg idx.last).size = idx.config.segmentThreshold))

/-- The block for a full segment; it returns the pointer that goes to `inserted`. -/
def sealBody (rt : Runtime B ID Vec Dist) : Proc (Index B ID) (Except Fault Nat) :=
  (Proc.read fun idx : Index B ID => .ok idx.last).andThen fun p =>
    (Proc.attempt fun idx : Index B ID => (idx.storageAdd idx.last).map ((), ·)).andThen fun _ =>
      (write (openNext rt)).andThen fun _ => .done (.ok p)

def addLoopBody (rt : Runtime B ID Vec Dist) :
    Nat → List Nat → List (ID × Vec) → Proc (Index B ID) (Except Fault (List Nat))
  | _, inserted, [] => .done (.ok inserted)
  | 0, _, _ :: _ => .done (.error .outOfFuel)
  | fuel + 1, inserted, row :: rows =>
    (takeBatch (row :: rows).length).andThen fun batch =>
      (write fun idx => idx.appendLast rt ((row :: rows).take batch)).andThen fun _ =>
        isFull.andThen fun full =>
          if full then
            (sealBody rt).andThen fun p =>
              addLoopBody rt fuel (inserted ++ [p]) ((row :: rows).drop batch)
          else addLoopBody rt fuel inserted ((row :: rows).drop batch)

/-! ## `merge` -/

/-- `amount`, `erased` and `inserted` of a merge. -/
structure MergeLocals where
  amount : Nat
  erased : List Nat
  inserted : List Nat

/-- The locals with the members make the state of a merge. -/
def MergeLocals.state (l : MergeLocals) (idx : Index B ID) : MergeState B ID :=
  ⟨idx, l.amount, l.erased, l.inserted⟩

def splitState (s : MergeState B ID) : MergeLocals × Index B ID :=
  (⟨s.amount, s.erased, s.inserted⟩, s.index)

def mergePairBody (rt : Runtime B ID Vec Dist) (i : Nat) (l : MergeLocals) (j : Nat) :
    Proc (Index B ID) (Except Fault MergeLocals) :=
  .attempt fun idx => (mergePair rt i (l.state idx) j).map splitState

def joinPairsBody (rt : Runtime B ID Vec Dist) (i : Nat) (l : MergeLocals) :
    Proc (Index B ID) (Except Fault MergeLocals) :=
  (Proc.read fun idx : Index B ID => .ok ((idx.levels[i]?.getD []).length - 1)).andThen fun n =>
    .forEach (mergePairBody rt i) l (List.range n)

/-- The condition of the outer loop. -/
def mergeGoesOn (i : Nat) (l : MergeLocals) : Proc (Index B ID) (Except Fault Bool) :=
  .read fun idx => .ok (decide (l.amount > 0 ∧ i < idx.levels.length))

def mergeLoopBody (rt : Runtime B ID Vec Dist) :
    Nat → Nat → MergeLocals → Proc (Index B ID) (Except Fault MergeLocals)
  | 0, i, l =>
    (mergeGoesOn i l).andThen fun more => .done (if more then .error .outOfFuel else .ok l)
  | fuel + 1, i, l =>
    (mergeGoesOn i l).andThen fun more =>
      if more then
        (joinPairsBody rt i l).andThen fun l =>
          (write fun idx => idx.finishPass l.erased l.inserted).andThen fun _ =>
            mergeLoopBody rt fuel (i + 1) ⟨l.amount, [], []⟩
      else .done (.ok l)

def mergeBody (rt : Runtime B ID Vec Dist) (amount : Nat) :
    Proc (Index B ID) (Except Fault Unit) :=
  (Proc.read fun idx : Index B ID => .ok (idx.levels.weight 0)).andThen fun fuel =>
    (mergeLoopBody rt fuel 0 ⟨amount, [], []⟩).andThen fun _ =>
      write fun idx => { idx with levels := idx.levels.compact }

def addBody (rt : Runtime B ID Vec Dist) (rows : List (ID × Vec)) :
    Proc (Index B ID) (Except Fault Unit) :=
  (addLoopBody rt rows.length [] rows).andThen fun inserted =>
    (write fun idx => if !inserted.isEmpty then idx.notify [] inserted else idx).andThen fun _ =>
      (Proc.read fun idx : Index B ID => .ok idx.config.enableMerge).andThen fun merges =>
        if merges then mergeBody rt 200 else .done (.ok ())

/-! ## The other calls -/

/-- `deleteBatch` on one segment. -/
def deleteFrom (ids : List ID) (p : Nat) (idx : Index B ID) : Index B ID :=
  { idx with heap := idx.heap.modify p fun s => s.deleteBatch ids }

def eraseBody (ids : List ID) : Proc (Index B ID) (Except Fault Unit) :=
  (Proc.read fun idx : Index B ID => .ok idx.segments).andThen fun segments =>
    (Proc.forEach (fun _ p => write (deleteFrom ids p)) () segments).andThen fun _ =>
      write fun idx => deleteFrom ids idx.last idx

def pushSegmentBody (segment : Segment B ID) : Proc (Index B ID) (Except Fault Unit) :=
  (Proc.attempt fun idx : Index B ID =>
    (({ idx with heap := idx.heap.alloc segment } : Index B ID).storageAdd idx.heap.next).map
      (idx.heap.next, ·)).andThen fun p =>
    (write fun idx => { idx with segments := idx.segments ++ [p] }).andThen fun _ =>
      write fun idx => idx.notify [] [p]

def eraseSegmentBody (id : Nat) : Proc (Index B ID) (Except Fault Bool) :=
  .read fun idx => .ok (idx.eraseSegment id).1

section Search

variable [LinearOrder Dist] [LinearOrder ID]

def searchBody (rt : Runtime B ID Vec Dist) (q : Vec) (k : Nat) :
    Proc (Index B ID) (Except Fault (List ID)) :=
  (Proc.read fun idx : Index B ID => .ok idx.segments).andThen fun segments =>
    (Proc.forEach (fun stat p => .read fun idx => idx.collect rt q k stat p) [] segments).andThen
      fun stat =>
        (Proc.read fun idx : Index B ID => idx.collect rt q k stat idx.last).andThen fun stat =>
          .done (.ok (stat.map fun r => (ofLex r).2))

end Search

end Index

/-! ## Calls of threads -/

inductive IndexCall (B ID Vec : Type) [DecidableEq ID]
  | edit (op : Op B ID Vec)
  | search (query : Vec) (k : Nat)

/-- What a call returns. -/
inductive IndexAnswer (ID : Type)
  | none
  /-- Whether `eraseSegment` has found the segment. -/
  | found (b : Bool)
  | ids (answer : List ID)
  deriving DecidableEq, Repr

namespace IndexCall

/-- How a call holds `segments_m_`. -/
def mode : IndexCall B ID Vec → Mode
  | edit _ => .exclusive
  | search _ _ => .shared

variable [LinearOrder Dist] [LinearOrder ID]

/-- A call, with what it returns. -/
def body (rt : Runtime B ID Vec Dist) :
    IndexCall B ID Vec → Proc (Index B ID) (Except Fault (IndexAnswer ID))
  | edit (.add rows) => (Index.addBody rt rows).andThen fun _ => .done (.ok .none)
  | edit (.erase ids) => (Index.eraseBody ids).andThen fun _ => .done (.ok .none)
  | edit (.push segment _) => (Index.pushSegmentBody segment).andThen fun _ => .done (.ok .none)
  | edit (.eraseSegment id) => (Index.eraseSegmentBody id).andThen fun b => .done (.ok (.found b))
  | search query k => (Index.searchBody rt query k).andThen fun ids => .done (.ok (.ids ids))

end IndexCall

end Vecodex
