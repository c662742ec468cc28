import Vecodex.App.System

/-!
# Update calls that fail

The last loop of a callback task sends its update request to the hosts that etcd lists
(`app/src/Writer.cpp`). The client throws when the status of a call is not OK
(`app/src/SearcherClient.cpp`), and the task does not catch the exception: it leaves the loop, the
task and the thread of `callback_runner`, and the process of the writer is terminated.

`Courier` is the writer with a log of the tasks it has run, each with the update calls it made, up
to and including the one that threw. The status of a call is a parameter, by the host. The object
store and the searchers are left out, since the writer does not look at what its calls do there.
-/

namespace Vecodex

open Lib

variable {B Vec Dist Time : Type}

/-- A call of `ProcessUpdateRequest` and its status. -/
structure UpdateCall where
  host : String
  request : UpdateRequest
  ok : Bool
  deriving DecidableEq, Repr

/-- The loop over the hosts: the calls it makes, and whether it comes to its end. -/
def updateHosts (request : UpdateRequest) (ok : String → Bool) :
    List String → List UpdateCall × Except Fault Unit
  | [] => ([], .ok ())
  | host :: hosts =>
    if ok host then
      let rest := updateHosts request ok hosts
      (⟨host, request, true⟩ :: rest.1, rest.2)
    else ([⟨host, request, false⟩], .error .rpcFailed)

/-- A task that has run, its request, the hosts etcd listed for it, and its update calls. -/
structure Dispatch where
  task : Task
  request : UpdateRequest
  hosts : List String
  calls : List UpdateCall
  deriving DecidableEq, Repr

structure Courier (B : Type) where
  writer : Writer B
  ran : List Dispatch
  /-- The exception that terminated the process, if one did. -/
  terminated : Option Fault

/-- What a task finds outside the process: the answers of etcd, and which hosts take its call. -/
structure Round (Time : Type) where
  env : Env Time
  ok : String → Bool

/-- The hosts a task sends its request to. -/
def Round.hosts (round : Round Time) (task : Task) : List String :=
  round.env.listSearcherHosts task.indexId task.shardId

inductive CourierEvent (Vec Time : Type)
  | write (env : Env Time) (request : WriteRequest Vec)
  | task (round : Round Time)

namespace Courier

/-- The next task of the queue runs, if there is one and the process still runs. -/
def runTask (c : Courier B) (round : Round Time) : Courier B :=
  match c.terminated, c.writer.callbackRunner with
  | none, task :: tasks =>
    let request := task.request (c.writer.objects.get task.object).index
    let hosts := round.hosts task
    let (calls, outcome) := updateHosts request round.ok hosts
    { writer := { c.writer with callbackRunner := tasks }
      ran := c.ran ++ [⟨task, request, hosts, calls⟩]
      terminated :=
        match outcome with
        | .ok _ => none
        | .error fault => some fault }
  | _, _ => c

/-- The tasks at the front of the queue run, one for each round. -/
def runTasks (c : Courier B) (rounds : List (Round Time)) : Courier B := rounds.foldl runTask c

def start (rt : Runtime B Text Vec Dist) (indexesConfig : AList fun _ : String => IndexConfig)
    (env : Env Time) : Courier B :=
  { writer := (Writer.create rt indexesConfig).updateIndexesState rt env
    ran := []
    terminated := none }

/-- A terminated process takes no requests. -/
def exec [LT Time] [DecidableLT Time] (rt : Runtime B Text Vec Dist) (c : Courier B) :
    CourierEvent Vec Time → Except Fault (Courier B)
  | .write env request =>
    match c.terminated with
    | some _ => .ok c
    | none => do
      let (writer, _) ← c.writer.processWriteRequest rt env request
      return { c with writer := writer }
  | .task round => .ok (c.runTask round)

def run [LT Time] [DecidableLT Time] (rt : Runtime B Text Vec Dist) (c : Courier B)
    (events : List (CourierEvent Vec Time)) : Except Fault (Courier B) :=
  events.foldlM (exec rt) c

end Courier

end Vecodex
