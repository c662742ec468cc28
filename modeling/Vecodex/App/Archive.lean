import Vecodex.App.System

/-!
# Puts that fail

A callback task of the writer ignores what `putObject` returns (`app/src/Writer.cpp`,
`app/src/StorageClient.cpp`): after a put that failed it goes on with the next one, and then deletes
the erased ids all the same.

`Archive` is the writer with its object store, and without the searchers, which only read the
store. The operations on the store are kept in a log, each put with its outcome, so that the store
can be seen between any two of them. A run says for every task which of its puts succeed.
-/

namespace Vecodex

open Lib

variable {B Vec Dist Time : Type}

/-- A call of the storage client. Deleting an absent object does nothing. -/
inductive StoreOp
  | putObject (bucket id : Nat) (file : Bytes) (ok : Bool)
  | delObject (bucket id : Nat)
  deriving DecidableEq

namespace StoreOp

def apply (store : Store) : StoreOp → Store
  | putObject bucket id file ok => if ok then store.insert (bucket, id) file else store
  | delObject bucket id => store.erase (bucket, id)

def failed : StoreOp → Bool
  | putObject _ _ _ ok => !ok
  | delObject _ _ => false

end StoreOp

/-- The first loop of a task; `ok` says which of its puts succeed. -/
def Task.puts (rt : Runtime B Text Vec Dist) (platform : Platform B) (task : Task)
    (index : Index B Text) (ok : Nat → Bool) : List StoreOp :=
  task.call.inserted.zipIdx.map fun entry =>
    .putObject (platform.hash task.indexId) (index.idOf entry.1)
      (serializeSegment rt platform.toFiles (index.seg entry.1)) (ok entry.2)

/-- The second loop of a task. -/
def Task.deletions (platform : Platform B) (task : Task) : List StoreOp :=
  task.call.erased.map (.delObject (platform.hash task.indexId))

def Task.operations (rt : Runtime B Text Vec Dist) (platform : Platform B) (task : Task)
    (index : Index B Text) (ok : Nat → Bool) : List StoreOp :=
  task.puts rt platform index ok ++ task.deletions platform

/-- A task that has run, and its operations. -/
structure Delivery where
  task : Task
  operations : List StoreOp

structure Archive (B : Type) where
  writer : Writer B
  ran : List Delivery

inductive ArchiveEvent (Vec Time : Type)
  | write (env : Env Time) (request : WriteRequest Vec)
  | task (ok : Nat → Bool)

namespace Archive

/-- All operations on the store so far. -/
def log (a : Archive B) : List StoreOp := a.ran.flatMap Delivery.operations

/-- The store after a list of operations. -/
def storeAfter (log : List StoreOp) : Store := log.foldl StoreOp.apply ∅

def store (a : Archive B) : Store := storeAfter a.log

/-- The next task of the queue runs, if there is one. -/
def runTask (rt : Runtime B Text Vec Dist) (platform : Platform B) (a : Archive B)
    (ok : Nat → Bool) : Archive B :=
  match a.writer.callbackRunner with
  | [] => a
  | task :: tasks =>
    let index := (a.writer.objects.get task.object).index
    { writer := { a.writer with callbackRunner := tasks }
      ran := a.ran ++ [⟨task, task.operations rt platform index ok⟩] }

def start (rt : Runtime B Text Vec Dist) (indexesConfig : AList fun _ : String => IndexConfig)
    (env : Env Time) : Archive B :=
  { writer := (Writer.create rt indexesConfig).updateIndexesState rt env, ran := [] }

def exec [LT Time] [DecidableLT Time] (rt : Runtime B Text Vec Dist) (platform : Platform B)
    (a : Archive B) : ArchiveEvent Vec Time → Except Fault (Archive B)
  | .write env request => do
    let (writer, _) ← a.writer.processWriteRequest rt env request
    return { a with writer := writer }
  | .task ok => .ok (a.runTask rt platform ok)

def run [LT Time] [DecidableLT Time] (rt : Runtime B Text Vec Dist) (platform : Platform B)
    (a : Archive B) (events : List (ArchiveEvent Vec Time)) : Except Fault (Archive B) :=
  events.foldlM (exec rt platform) a

end Archive

end Vecodex
