import Vecodex.App.Process
import Vecodex.Lib.Threads

/-!
# Update handlers side by side (`app/src/Searcher.cpp`)

The server calls `ProcessUpdateRequest` on a thread for each request, and `SearcherImpl` has no
lock. So the handlers of two requests take turns, on the shards and on the working directory of the
process, where a segment file is named by the id of its segment and by nothing else.

A stage is the point a handler has come to. Between two stages lies what the others can see:
`getObject` opens its output file, which empties it, and writes it; the file is opened and read; the
segment is pushed, under the lock of the index; the file is removed; and so on with the next id.
A fault that is no exception ends the process, and with it all handlers.
-/

namespace Vecodex

open Lib

variable {B : Type}

/-- An update request, and the object store as its handler finds it. -/
structure HandlerCall where
  store : Store
  request : UpdateRequest

inductive UpdateStage (B : Type)
  /-- At the head of the first loop, with the ids that are left. -/
  | fetch (ids : List Nat)
  /-- `getObject` has opened its output file and is about to write the body. -/
  | write (file : Bytes) (id : Nat) (ids : List Nat)
  /-- `getObject` has returned. -/
  | read (id : Nat) (ids : List Nat)
  /-- `DeserealizeSegment` has returned. -/
  | push (segment : Option (Segment B Text)) (id : Nat) (ids : List Nat)
  /-- The segment has been pushed. -/
  | remove (id : Nat) (ids : List Nat)
  /-- At the head of the second loop. -/
  | erase (ids : List Nat)
  | returned (result : Except Fault Unit)

namespace SearcherProcess

def setFile (p : SearcherProcess B) (id : Nat) (content : Option Bytes) : SearcherProcess B :=
  { p with files := Function.update p.files id content }

/-- The handler is left by a fault. -/
def fail (p : SearcherProcess B) (e : Fault) : UpdateStage B × SearcherProcess B :=
  (.returned (.error e), if e.isException then p else { p with ended := some e })

/-- What a handler does next in a process that runs. -/
def advance (platform : Platform B) (call : HandlerCall) (p : SearcherProcess B) :
    UpdateStage B → Option (UpdateStage B × SearcherProcess B)
  | .fetch [] => some (.erase call.request.deleted, p)
  | .fetch (id :: ids) =>
    match call.store.lookup (platform.hash call.request.indexId, id) with
    | none => some (.read id ids, p)
    | some file => some (.write file id ids, p.setFile id (some []))
  | .write file id ids => some (.read id ids, p.setFile id (some file))
  | .read id ids =>
    match p.files id with
    | none => some (p.fail .missingObject)
    | some file =>
      match deserealizeSegment platform.toFiles file with
      | .error e => some (p.fail e)
      | .ok (segment, _) => some (.push segment id ids, p)
  | .push segment id ids =>
    match p.call call.request.indexId call.request.shardId (pushFetched segment) with
    | (.error e, p) => some (p.fail e)
    | (.ok (), p) => some (.remove id ids, p)
  | .remove id ids => some (.fetch ids, p.setFile id none)
  | .erase [] => some (.returned (.ok ()), p)
  | .erase (id :: ids) =>
    match p.eraseDeleted call.request id with
    | (.error e, p) => some (p.fail e)
    | (.ok (), p) => some (.erase ids, p)
  | .returned _ => none

/-- The next step of a handler. -/
def nextUpdate {T : Type} (platform : Platform B) (calls : T → HandlerCall) (t : T)
    (stage : UpdateStage B) (p : SearcherProcess B) : Option (UpdateStage B × SearcherProcess B) :=
  match p.ended with
  | some _ => none
  | none => p.advance platform (calls t) stage

/-- All handlers are at their beginning. -/
def accept {T : Type} (calls : T → HandlerCall) (p : SearcherProcess B) :
    Threads T (UpdateStage B) (SearcherProcess B) :=
  { shared := p, thread := fun t => .fetch (calls t).request.added }

/-- The handlers and the process, after the turns of a schedule. -/
def handle {T : Type} [DecidableEq T] (platform : Platform B) (calls : T → HandlerCall)
    (p : SearcherProcess B) (schedule : List T) : Threads T (UpdateStage B) (SearcherProcess B) :=
  (accept calls p).run (nextUpdate platform calls) schedule

end SearcherProcess

end Vecodex
