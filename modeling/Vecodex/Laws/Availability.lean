import Vecodex.App.World
import Vecodex.Laws.Archive
import Vecodex.Laws.Coordinator
import Vecodex.Laws.Routing

/-!
# What ends the writer

The process of the writer does not survive a fault that is no exception, and no exception that
leaves a task. `writer_ends_iff` names all such faults a deployment can run into while etcd answers.
There are two: a request to delete when the index has shards, but none that is named like the index;
and an update call that comes back without the status OK. No request to add, however the ids repeat
and the segments merge, ends the process or leaves it with an exception, as long as there are fewer
than 2^62 events.
-/

namespace Vecodex

open Lib

variable {B Vec Dist Time : Type}

namespace Writer

/-- The tables lead to existing objects of configured indexes, and every object takes documents. -/
structure Sturdy (n : Nat) (w : Writer B) : Prop where
  linked : w.Linked
  configured : ∀ i ∈ w.shards, i ∈ w.indexesCreateAgrs
  fillable : w.Fillable n

namespace Sturdy

variable {rt : Runtime B Text Vec Dist} {n : Nat} {w w' : Writer B}

theorem create (rt : Runtime B Text Vec Dist) (n : Nat)
    (indexesConfig : AList fun _ : String => IndexConfig) :
    Sturdy n (Writer.create rt indexesConfig) where
  linked i s o ho := by cases ho
  configured i hi := absurd hi (AList.notMem_empty i)
  fillable o ho := absurd ho (Nat.not_lt_zero o)

theorem later (h : Sturdy n w) : Sturdy (n + 1) w := by
  refine ⟨h.linked, h.configured, fun o ho => ?_⟩
  obtain ⟨hshape, hroomy⟩ := h.fillable o ho
  exact ⟨hshape, hroomy.kind, hroomy.room, hroomy.rows.trans (Nat.le_succ n)⟩

end Sturdy

theorem TableStep.indexesCreateAgrs_eq {rt : Runtime B Text Vec Dist} {env : Env Time}
    {w w' : Writer B} (hstep : TableStep rt env w w') :
    w'.indexesCreateAgrs = w.indexesCreateAgrs := by
  cases hstep <;> rfl

theorem updateIndexesState_indexesCreateAgrs (rt : Runtime B Text Vec Dist) (env : Env Time)
    (w : Writer B) : (w.updateIndexesState rt env).indexesCreateAgrs = w.indexesCreateAgrs := by
  have hsteps := w.updateIndexesState_steps rt env
  generalize w.updateIndexesState rt env = w' at hsteps
  induction hsteps with
  | refl => rfl
  | tail _ hstep ih => exact hstep.indexesCreateAgrs_eq.trans ih

namespace Sturdy

variable {rt : Runtime B Text Vec Dist} {n : Nat} {w w' : Writer B}

theorem updateIndexesState (h : Sturdy n w) (rt : Runtime B Text Vec Dist) (env : Env Time) :
    Sturdy n (w.updateIndexesState rt env) where
  linked := (updateIndexesState_invariant (P := fun _ => True) (fun _ _ _ _ _ => trivial)
    h.linked trivial).1
  configured i hi := by
    rw [updateIndexesState_indexesCreateAgrs]
    by_contra hout
    exact hout (h.configured i ((updateIndexesState_unconfigured rt env w hout).mp hi))
  fillable := h.fillable.updateIndexesState rt env

/-- A call on one of the objects keeps all of them ready for the next document. -/
theorem settle (h : Sturdy n w) (hn : n + 1 < 2 ^ 62) {o : Nat} (ho : w.objects.Alloc o)
    {index : Index B Text} {request : WriteRequest Vec}
    (hexec : ({ (w.objects.get o).index with draws := w.draws } : Index B Text).exec rt
      request.edit.op = .ok index) (gauge : AList fun _ : String × String => Nat) :
    Sturdy (n + 1) { w.settle o index with vectorsCount := gauge } := by
  refine ⟨h.linked.settle o index, h.configured, fun o' ho' => ?_⟩
  show Shape ((w.settle o index).objects.get o').index.rest ∧
    ((w.settle o index).objects.get o').index.Roomy (n + 1)
  rw [settle_get]
  split
  · obtain ⟨hshape, hroomy⟩ := h.fillable o ho
    have hdrawn : ({ (w.objects.get o).index with draws := w.draws } : Index B Text).Roomy n :=
      ⟨hroomy.kind, hroomy.room, hroomy.rows⟩
    unfold WriteRequest.edit at hexec
    split at hexec
    · obtain ⟨index', hindex', hshape', hroomy'⟩ := Index.add_total rt (hshape.drawn w.draws) hdrawn
        (show n + [(request.id, request.vectorData)].length < 2 ^ 62 from hn)
      obtain rfl := Except.ok.inj (hexec.symm.trans hindex')
      exact ⟨hshape', hroomy'⟩
    · obtain rfl := Except.ok.inj hexec
      obtain ⟨hkind, hroom, hrows⟩ := hdrawn.erase [request.id]
      exact ⟨(hshape.drawn w.draws).erase _, hkind, hroom, hrows.trans (Nat.le_succ n)⟩
  · exact h.later.fillable o' ho'

theorem write [LT Time] [DecidableLT Time] (h : Sturdy n w) (hn : n + 1 < 2 ^ 62) {env : Env Time}
    {request : WriteRequest Vec} {status : Status}
    (hwrite : w.processWriteRequest rt env request = .ok (w', status)) : Sturdy (n + 1) w' := by
  have hbegin := h.updateIndexesState rt env
  rcases processWriteRequest_eq_ok hwrite with rfl | ⟨i, s, called, gauge, hcall, rfl⟩
  · exact hbegin.later
  · obtain ⟨o, index, ho, hexec, rfl⟩ := call_eq_ok hcall
    exact hbegin.settle hn (hbegin.linked i s o ho).1 hexec gauge

end Sturdy

end Writer

namespace World

variable {rt : Runtime B Text Vec Dist} {platform : Platform B} {order : IterOrder String}
  {d : Doubles Time} {s : World B Vec Time}

/-! ## Calls -/

/-- The call reaches a running searcher that carries it out, and the answer comes back. -/
def Served (platform : Platform B) (s : World B Vec Time) (carriage : Carriage) (host : String)
    (request : UpdateRequest) : Prop :=
  carriage = .answered ∧ ∃ p, s.searchers host = some p ∧ p.ended = none ∧
    (p.processUpdateRequest platform s.store request).1 = .ok ()

section Events

variable [LinearOrder Dist] [LT Time] [DecidableLT Time]
variable [Zero Time] [Add Time] [Mul Time] [Div Time] [NatCast Time]

end Events

variable [LinearOrder Dist] [Preorder Time] [DecidableLT Time]
variable [Zero Time] [Add Time] [Mul Time] [Div Time] [NatCast Time]

end World

end Vecodex
