import Vecodex.Laws.Callback
import Vecodex.Laws.Writer

/-!
# The queue of callback tasks

Every call of the callback of an index object becomes one task, and tasks run in the order of the
queue. So the calls of an object are those whose tasks have run followed by those whose tasks are
queued, and every task carries the names of its object (`Accounted`). What a task sends is the
request of its call (`Logged`).
-/

namespace Vecodex

open Lib

variable {B Vec Dist Time : Type}

/-- The calls of an index object among the tasks. -/
def callsOf (o : Nat) (tasks : List Task) : List Call :=
  (tasks.filter fun t => t.object = o).map Task.call

theorem callsOf_append (o : Nat) (tasks tasks' : List Task) :
    callsOf o (tasks ++ tasks') = callsOf o tasks ++ callsOf o tasks' := by
  rw [callsOf, List.filter_append, List.map_append]
  rfl

theorem callsOf_cons_self (task : Task) (tasks : List Task) :
    callsOf task.object (task :: tasks) = task.call :: callsOf task.object tasks := by
  rw [callsOf, List.filter_cons, if_pos (decide_eq_true rfl)]
  rfl

theorem callsOf_eq_nil {o : Nat} {tasks : List Task} (h : ∀ t ∈ tasks, t.object ≠ o) :
    callsOf o tasks = [] := by
  rw [callsOf, List.map_eq_nil_iff, List.filter_eq_nil_iff]
  exact fun t ht heq => h t ht (of_decide_eq_true heq)

/-- The task comes from an object of the writer and carries its names. -/
def Task.From (w : Writer B) (t : Task) : Prop :=
  w.objects.Alloc t.object ∧ (w.objects.get t.object).indexId = t.indexId ∧
    (w.objects.get t.object).shardId = t.shardId

/-- Names and objects stay. -/
theorem Task.From.mono {w w' : Writer B} {t : Task} (h : t.From w)
    (hobjects : ∀ o, w.objects.Alloc o → w'.objects.Alloc o ∧
      (w'.objects.get o).indexId = (w.objects.get o).indexId ∧
      (w'.objects.get o).shardId = (w.objects.get o).shardId) : t.From w' := by
  obtain ⟨halloc, hi, hs⟩ := h
  obtain ⟨halloc', hi', hs'⟩ := hobjects _ halloc
  exact ⟨halloc', hi'.trans hi, hs'.trans hs⟩

/-- What has run, what is queued, and what the objects have called. -/
structure Accounted (w : Writer B) (ran : List Task) : Prop where
  order : ∀ o, w.objects.Alloc o →
    callsOf o ran ++ callsOf o w.callbackRunner = (w.objects.get o).index.calls
  queued : ∀ t ∈ w.callbackRunner, t.From w
  ran : ∀ t ∈ ran, t.From w

namespace Accounted

variable {rt : Runtime B Text Vec Dist} {w : Writer B} {ran : List Task}

theorem create (rt : Runtime B Text Vec Dist)
    (indexesConfig : AList fun _ : String => IndexConfig) :
    Accounted (Writer.create rt indexesConfig) [] where
  order o ho := absurd ho (Nat.not_lt_zero o)
  queued t ht := by cases ht
  ran t ht := by cases ht

/-- A new object has called nobody, and no task is its own. -/
theorem table (h : Accounted w ran) {env : Env Time} {w' : Writer B}
    (hstep : Writer.TableStep rt env w w') : Accounted w' ran := by
  have hqueue : w'.callbackRunner = w.callbackRunner := by
    cases hstep <;> rfl
  have hfrom : ∀ {t : Task}, t.From w → t.From w' := by
    intro t ht
    refine ht.mono fun o ho => ?_
    obtain ⟨ho', hget⟩ := hstep.keeps ho
    rw [hget]
    exact ⟨ho', rfl, rfl⟩
  constructor
  · intro o ho
    rw [hqueue]
    rcases hstep.objects_eq with ⟨hobjects, -⟩ | ⟨i, s, config, hobjects, -⟩
    · rw [hobjects] at ho ⊢
      exact h.order o ho
    · rw [hobjects] at ho ⊢
      rcases Heap.alloc_cases ho with ⟨ho, hget⟩ | ⟨rfl, hget⟩
      · rw [hget]
        exact h.order o ho
      · rw [hget, callsOf_eq_nil fun t ht => Nat.ne_of_lt (h.ran t ht).1,
          callsOf_eq_nil fun t ht => Nat.ne_of_lt (h.queued t ht).1]
        rfl
  · exact fun t ht => hfrom (h.queued t (hqueue ▸ ht))
  · exact fun t ht => hfrom (h.ran t ht)

/-- The calls a request makes are queued behind the others. -/
theorem settle (h : Accounted w ran) {o : Nat} (halloc : w.objects.Alloc o) {index : Index B Text}
    (hcalls : (w.objects.get o).index.calls <+: index.calls) :
    Accounted (w.settle o index) ran := by
  have hmono : ∀ o', w.objects.Alloc o' → (w.settle o index).objects.Alloc o' ∧
      ((w.settle o index).objects.get o').indexId = (w.objects.get o').indexId ∧
      ((w.settle o index).objects.get o').shardId = (w.objects.get o').shardId :=
    fun o' ho' => ⟨ho', w.settle_names o index o'⟩
  constructor
  · intro o' ho'
    have hqueue : callsOf o' (w.settle o index).callbackRunner = callsOf o' w.callbackRunner ++
        if o' = o then index.calls.drop (w.objects.get o).index.calls.length else [] := by
      rw [Writer.settle, callsOf_append]
      congr 1
      split
      · next heq =>
        rw [callsOf, List.filter_eq_self.mpr, List.map_map]
        · exact List.map_id _
        · intro t ht
          obtain ⟨call, -, rfl⟩ := List.mem_map.mp ht
          exact decide_eq_true heq.symm
      · next hne =>
        refine callsOf_eq_nil fun t ht heq => hne ?_
        obtain ⟨call, -, rfl⟩ := List.mem_map.mp ht
        exact heq.symm
    rw [hqueue, Writer.settle_get, ← List.append_assoc, h.order o' ho']
    split
    · next heq =>
      subst heq
      exact (List.prefix_append_drop hcalls).symm
    · exact List.append_nil _
  · intro t ht
    rcases List.mem_append.mp ht with ht | ht
    · exact (h.queued t ht).mono hmono
    · obtain ⟨call, -, rfl⟩ := List.mem_map.mp ht
      exact ⟨halloc, w.settle_names o index o⟩
  · exact fun t ht => (h.ran t ht).mono hmono

/-- The first task of the queue becomes the last one that has run. -/
theorem delivered (h : Accounted w ran) {task : Task} {tasks : List Task}
    (hnext : w.callbackRunner = task :: tasks) :
    Accounted { w with callbackRunner := tasks } (ran ++ [task]) := by
  constructor
  · intro o ho
    have horder := h.order o ho
    rw [hnext, ← List.singleton_append, callsOf_append] at horder
    rwa [callsOf_append, List.append_assoc]
  · exact fun t ht => h.queued t (hnext ▸ List.mem_cons_of_mem _ ht)
  · intro t ht
    rcases List.mem_append.mp ht with ht | ht
    · exact h.ran t ht
    · exact h.queued t (hnext ▸ List.mem_singleton.mp ht ▸ List.mem_cons_self)

/-- The task to run next is the next call of its object. -/
theorem next_call (h : Accounted w ran) {task : Task} {tasks : List Task}
    (hnext : w.callbackRunner = task :: tasks) :
    (w.objects.get task.object).index.calls[(callsOf task.object ran).length]? =
      some task.call := by
  have halloc := (h.queued task (hnext ▸ List.mem_cons_self)).1
  rw [← h.order task.object halloc, hnext, callsOf_cons_self,
    List.getElem?_append_right (Nat.le_refl _), Nat.sub_self, List.getElem?_cons_zero]

end Accounted

/-- The tasks that have run, and the requests they sent. -/
structure Logged (st : System B) : Prop where
  accounted : Accounted st.writer (st.sent.map Sent.task)
  sent : ∀ e ∈ st.sent, e.request.indexId = e.task.indexId ∧
    e.request.shardId = e.task.shardId ∧ e.request.deleted = e.task.call.erased

/-- The log and the queue agree with the objects after every run. -/
theorem Logged.of_run [LT Time] [DecidableLT Time] {rt : Runtime B Text Vec Dist} {st : System B}
    {platform : Platform B} {indexesConfig : AList fun _ : String => IndexConfig}
    {searchersConfigs : String → Option (List ShardConfig)} {env : Env Time}
    {events : List (Event Vec Time)}
    (hrun : (System.start rt indexesConfig searchersConfigs env).run rt platform events = .ok st) :
    Logged st := by
  refine (System.invariant (P := Logged) hrun ?_ ?_ ?_ ?_ ?_).2
  · exact ⟨.create rt indexesConfig, fun e he => by cases he⟩
  · exact fun _ _ u w' _ hu hstep => ⟨hu.accounted.table hstep, hu.sent⟩
  · exact fun u gauge hu =>
      ⟨⟨hu.accounted.order, hu.accounted.queued, hu.accounted.ran⟩, hu.sent⟩
  · intro env' request _ u o index _ hu halloc hexec
    exact ⟨hu.accounted.settle halloc (calls_prefix_of_runs (Index.exec_runs hexec)), hu.sent⟩
  · intro env' _ u task tasks searchers _ hu hnext _
    constructor
    · show Accounted { u.writer with callbackRunner := tasks } (List.map Sent.task (u.sent ++ [_]))
      rw [List.map_append]
      exact hu.accounted.delivered hnext
    · intro e he
      rcases List.mem_append.mp he with he | he
      · exact hu.sent e he
      · rw [List.mem_singleton.mp he]
        exact ⟨rfl, rfl, rfl⟩

end Vecodex
