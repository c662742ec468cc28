import Vecodex.Lib.LockOrder

/-!
# The locks of the processes

Which locks the handlers hold, and in which order they take them. `runner_lock` is held by the write
requests and the tasks of a writer (`app/src/Writer.cpp`), `mutex_` by the requests of a coordinator
(`app/src/Coordinator.cpp`), `segments_m_` by the calls of an index (`index/include/Index.h`) and
`m_` by those of a segment (`index/include/Segment.h`). The exposer has a lock of its own
(`app/include/utils/PrometheusExposer.h`).

A handler is a program of acquisitions and releases. What the program depends on, such as the
segments of an index or the pairs that a merge joins, is an argument. The two segments of a pair are
different, since no level holds a segment twice (`Shape.join_cells`).
-/

namespace Vecodex

open Lib LockStep

inductive LockName
  | runnerLock
  | mutex
  /-- `segments_m_` of an index. -/
  | segments (index : Nat)
  /-- `m_` of a segment of the index. -/
  | segment (index p : Nat)
  | exposer
  deriving DecidableEq, Repr

abbrev LockProgram := List (LockStep LockName)

/-- Two cells of a level that a merge joins. -/
abbrev Pair := { pair : Nat × Nat // pair.1 ≠ pair.2 }

/-! ## Segments -/

namespace LockName

def deleteBatch (index p : Nat) : LockProgram := holding (segment index p) .exclusive []

def searchQuery (index p : Nat) : LockProgram := holding (segment index p) .shared []

def serialize (index p : Nat) : LockProgram := holding (segment index p) .shared []

/-- The other segment is locked first. -/
def mergeSegment (index p other : Nat) : LockProgram :=
  holding (segment index other) .exclusive (holding (segment index p) .exclusive [])

/-! ## Indexes -/

def add (index : Nat) (pairs : List Pair) : LockProgram :=
  holding (segments index) .exclusive
    (pairs.flatMap fun pair => mergeSegment index pair.1.1 pair.1.2)

def erase (index : Nat) (ps : List Nat) : LockProgram :=
  holding (segments index) .exclusive (ps.flatMap (deleteBatch index))

def search (index : Nat) (ps : List Nat) : LockProgram :=
  holding (segments index) .shared (ps.flatMap (searchQuery index))

def pushSegment (index : Nat) : LockProgram := holding (segments index) .exclusive []

def eraseSegment (index : Nat) : LockProgram := holding (segments index) .exclusive []

/-- Calls of the exposer, which lock it some number of times in all. -/
def metrics (n : Nat) : LockProgram :=
  (List.range n).flatMap fun _ => holding exposer .exclusive []

end LockName

/-! ## Handlers -/

/-- A request or a task, with what its way through the locks depends on. -/
inductive Handler
  /-- `ProcessWriteRequest` that adds. -/
  | writeAdd (before : Nat) (index : Nat) (pairs : List Pair) (after : Nat)
  /-- `ProcessWriteRequest` that deletes. -/
  | writeErase (before : Nat) (index : Nat) (ps : List Nat) (after : Nat)
  /-- `ProcessWriteRequest` that is refused. -/
  | writeRefused (before : Nat)
  /-- A task of `callback_runner`. -/
  | task (before : Nat) (inserted : List (Nat × Nat))
  /-- `ProcessSearchRequest` of a searcher, over the shards it searches. -/
  | search (before : Nat) (shards : List (Nat × List Nat))
  /-- `ProcessUpdateRequest` of a searcher. -/
  | update (before : Nat) (index added deleted : Nat)
  /-- `ProcessSearchRequest` of a coordinator. -/
  | coordinate (before inside : Nat)

open LockName in
def Handler.locks : Handler → LockProgram
  | writeAdd before index pairs after =>
    holding runnerLock .exclusive (metrics before ++ add index pairs ++ metrics after)
  | writeErase before index ps after =>
    holding runnerLock .exclusive (metrics before ++ erase index ps ++ metrics after)
  | writeRefused before => holding runnerLock .exclusive (metrics before)
  | task before inserted =>
    holding runnerLock .exclusive
      (metrics before ++ inserted.flatMap fun s => serialize s.1 s.2)
  | search before shards =>
    metrics before ++ shards.flatMap fun shard => LockName.search shard.1 shard.2
  | update before index added deleted =>
    metrics before ++ (List.range added).flatMap (fun _ => pushSegment index) ++
      (List.range deleted).flatMap fun _ => eraseSegment index
  | coordinate before inside => metrics before ++ holding mutex .exclusive (metrics inside)

end Vecodex
