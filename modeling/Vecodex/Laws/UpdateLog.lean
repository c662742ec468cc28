import Vecodex.Laws.Tasks

/-!
# The log of update requests

A searcher, or anybody else, that applies the update requests of a shard one after the other wants
to end up with the ids of the writer's segments. The calls of the callback would give that
(`observer_holds_levels`), but a request does not announce the ids of the call: the task reads the
ids of its segments when it runs, and a merge may have renamed a segment since. The id that was
announced at the call never appears, and its deletion finds nothing
(`late_task_announces_new_id`).

When every task finds its segments under the ids of the call (`System.Prompt`), the requests are
the calls, and the log is consistent (`update_log_consistent`).
-/

namespace Vecodex

open Lib

variable {B Vec Dist Time : Type}

/-- The requests that were sent for a shard, in order. -/
def System.requests (st : System B) (i s : String) : List UpdateRequest :=
  (st.sent.filter fun e => e.request.indexId = i ∧ e.request.shardId = s).map Sent.request

/-- The collection of ids after a list of requests: each inserts what it adds and removes what it
deletes, which must be there. -/
def replay (requests : List UpdateRequest) : Option (List Nat) :=
  requests.foldlM (fun coll r => takeOut (coll ++ r.added) r.deleted) []

/-- Every index object the writer ever made for the shard is the one in its tables: the shard was
not taken from it in between. -/
def Writer.Kept (w : Writer B) (i s : String) : Prop :=
  ∀ o, w.objects.Alloc o → (w.objects.get o).indexId = i → (w.objects.get o).shardId = s →
    (w.table i).lookup s = some o

instance (w : Writer B) (i s : String) : Decidable (w.Kept i s) :=
  inferInstanceAs (Decidable (∀ o < w.objects.next, (w.objects.get o).indexId = i →
    (w.objects.get o).shardId = s → (w.table i).lookup s = some o))

/-- Requests with the ids of the calls hold what an observer of the calls holds. The observer
removes before it inserts, which makes no difference when what is removed is there. -/
theorem replay_of_observed {requests : List UpdateRequest} {calls : List Call} {coll : List Nat}
    (hsame : requests.map (fun r => (r.added, r.deleted)) = calls.map fun c => (c.seen, c.erased))
    (h : observed calls = some coll) : ∃ coll', replay requests = some coll' ∧ coll'.Perm coll := by
  have hfrom : ∀ start start' : List Nat, start'.Perm start →
      calls.foldlM (fun coll call => post coll (call.erased, call.seen)) start = some coll →
      ∃ coll', requests.foldlM (fun coll r => takeOut (coll ++ r.added) r.deleted) start' =
        some coll' ∧ coll'.Perm coll := by
    clear h
    induction requests generalizing calls with
    | nil =>
      intro start start' hperm hcoll
      obtain rfl := List.map_eq_nil_iff.mp hsame.symm
      cases hcoll
      exact ⟨start', rfl, hperm⟩
    | cons r requests ih =>
      intro start start' hperm hcoll
      obtain ⟨c, calls, rfl, hc, hcalls⟩ := List.map_eq_cons_iff.mp hsame.symm
      obtain ⟨hadded, hdeleted⟩ := Prod.mk.inj hc
      rw [List.foldlM_cons, Option.bind_eq_bind, Option.bind_eq_some_iff] at hcoll
      obtain ⟨next, hnext, hrest⟩ := hcoll
      obtain ⟨left, hleft, rfl⟩ := Option.map_eq_some_iff.mp hnext
      have hall : (start' ++ r.added).Perm (r.deleted ++ (left ++ c.seen)) := by
        rw [← hadded, ← hdeleted, ← List.append_assoc]
        exact (hperm.trans (perm_of_takeOut hleft)).append_right c.seen
      obtain ⟨left', hleft', hperm'⟩ := takeOut_of_perm hall
      obtain ⟨coll', hcoll', hend⟩ := ih hcalls.symm _ left' hperm' hrest
      refine ⟨coll', ?_, hend⟩
      rw [List.foldlM_cons, Option.bind_eq_bind, Option.bind_eq_some_iff]
      exact ⟨left', hleft', hcoll'⟩
  exact hfrom [] [] (List.Perm.refl _) h

/-- The requests of a shard that was kept are those of the calls of its object. -/
theorem Logged.requests_eq {st : System B} (h : Logged st) {i s : String} {o : Nat}
    (ho : (st.writer.table i).lookup s = some o) (hlinked : st.writer.Linked)
    (hkept : st.writer.Kept i s) (hempty : st.writer.callbackRunner = [])
    (hseen : ∀ e ∈ st.sent, e.request.indexId = i → e.request.shardId = s →
      e.request.added = e.task.call.seen) :
    (st.requests i s).map (fun r => (r.added, r.deleted)) =
      (st.writer.objects.get o).index.calls.map fun c => (c.seen, c.erased) := by
  obtain ⟨halloc, hi, hs⟩ := hlinked i s o ho
  have hsame : ∀ e ∈ st.sent, (e.request.indexId = i ∧ e.request.shardId = s) ↔
      e.task.object = o := by
    intro e he
    obtain ⟨halloc', hi', hs'⟩ := h.accounted.ran e.task (List.mem_map_of_mem he)
    obtain ⟨hri, hrs, -⟩ := h.sent e he
    rw [hri, hrs]
    constructor
    · rintro ⟨rfl, rfl⟩
      have hobject := hkept _ halloc' hi' hs'
      exact Option.some.inj (hobject.symm.trans ho)
    · rintro rfl
      exact ⟨hi'.symm.trans hi, hs'.symm.trans hs⟩
  have hcalls := h.accounted.order o halloc
  rw [hempty, callsOf_eq_nil fun t ht => (List.not_mem_nil ht).elim, List.append_nil] at hcalls
  rw [← hcalls, System.requests, callsOf, List.filter_map, List.map_map, List.map_map, List.map_map,
    List.filter_congr fun e he => decide_eq_decide.mpr (hsame e he)]
  refine List.map_congr_left fun e he => ?_
  obtain ⟨he, hobject⟩ := List.mem_filter.mp he
  obtain ⟨hi', hs'⟩ := (hsame e he).mpr (of_decide_eq_true hobject)
  exact congrArg₂ Prod.mk (hseen e he hi' hs') (h.sent e he).2.2

/-- When the event runs a task of the shard, the segments of its call have the ids that they had
then. -/
def System.Prompt (i s : String) (st : System B) : Event Vec Time → Prop
  | .write _ _ => True
  | .task _ => ∀ task ∈ st.writer.callbackRunner.head?, task.indexId = i → task.shardId = s →
    task.call.inserted.map (st.writer.objects.get task.object).index.idOf = task.call.seen

instance (i s : String) (st : System B) : ∀ event : Event Vec Time, Decidable (st.Prompt i s event)
  | .write _ _ => .isTrue trivial
  | .task _ => inferInstanceAs (Decidable (∀ task ∈ st.writer.callbackRunner.head?,
    task.indexId = i → task.shardId = s →
      task.call.inserted.map (st.writer.objects.get task.object).index.idOf = task.call.seen))

variable [LT Time] [DecidableLT Time]

theorem System.Prompt.exec {rt : Runtime B Text Vec Dist} {platform : Platform B} {i s : String}
    {st st' : System B} {event : Event Vec Time} (h : st.Prompt i s event)
    (hsent : ∀ e ∈ st.sent, e.request.indexId = i → e.request.shardId = s →
      e.request.added = e.task.call.seen) (hexec : st.exec rt platform event = .ok st') :
    ∀ e ∈ st'.sent, e.request.indexId = i → e.request.shardId = s →
      e.request.added = e.task.call.seen := by
  cases event with
  | write env request =>
    obtain ⟨r, -, hst'⟩ := bind_eq_ok.mp hexec
    cases hst'
    exact hsent
  | task env =>
    rcases System.runTask_eq_ok hexec with ⟨-, rfl⟩ | ⟨task, tasks, searchers, hqueue, -, rfl⟩
    · exact hsent
    · intro e he hi hs
      rcases List.mem_append.mp he with he | he
      · exact hsent e he hi hs
      · cases List.mem_singleton.mp he
        exact h task (by rw [hqueue]; rfl) hi hs

/-- In every run in which the tasks of a shard find their segments under the ids of the calls and
the shard was not taken from the writer, whenever the queue is empty the update requests of the
shard give the ids of its segments, each once. -/
theorem update_log_consistent (rt : Runtime B Text Vec Dist) (platform : Platform B)
    (indexesConfig : AList fun _ : String => IndexConfig)
    (searchersConfigs : String → Option (List ShardConfig)) (env : Env Time)
    (events : List (Event Vec Time)) (st : System B)
    (hrun : (System.start rt indexesConfig searchersConfigs env).run rt platform events = .ok st)
    (hrand : rt.Distinct st.writer.draws) (i s : String) (o : Nat)
    (ho : (st.writer.table i).lookup s = some o) (hkept : st.writer.Kept i s)
    (hprompt : Meets (System.exec rt platform) (System.Prompt i s)
      (System.start rt indexesConfig searchersConfigs env) events)
    (hempty : st.writer.callbackRunner = []) :
    ∃ coll, replay (st.requests i s) = some coll ∧
      coll.Perm ((st.writer.objects.get o).index.current.map (st.writer.objects.get o).index.idOf) ∧
      coll.Nodup := by
  obtain ⟨hlinked, hcounts, hobjects⟩ := System.objects_invariant
    (Q := fun idx => (Shape idx.rest ∧ Observed idx.rest) ∧
      (rt.Distinct idx.draws → Sound rt [] idx.rest)) hrun
    (fun config draws => ⟨⟨Shape.create rt config true draws, Observed.create rt config draws⟩,
      fun _ => Sound.create rt config true draws⟩)
    (fun _ _ _ idx idx' h hruns => ⟨hruns.invariant (P := fun _ u => Shape u ∧ Observed u)
        (fun _ _ _ _ hu hstep => ⟨hu.1.step hstep, hu.2.step hu.1 hstep⟩) h.1,
      fun hd => (h.2 (hd.mono (draws_le_of_runs hruns))).of_edit hruns hd⟩)
  have hseen := hprompt.preserves (P := fun st => ∀ e ∈ st.sent, e.request.indexId = i →
    e.request.shardId = s → e.request.added = e.task.call.seen)
    (fun _ _ _ hevent hsent hexec => hevent.exec hsent hexec) (fun e he => by cases he) hrun
  have halloc := (hlinked i s o ho).1
  obtain ⟨⟨-, hobserved⟩, hsound⟩ := hobjects o halloc
  obtain ⟨coll, hcoll, hledger⟩ := hobserved.ledger
  have hperm : coll.Perm ((st.writer.objects.get o).index.current.map
      (st.writer.objects.get o).index.idOf) := by simpa [Index.rest] using hledger
  obtain ⟨coll', hreplay, hperm'⟩ := replay_of_observed
    ((Logged.of_run hrun).requests_eq ho hlinked hkept hempty hseen) hcoll
  have hnodup := (hsound (hrand.mono (hcounts o halloc))).nodup_ids
  exact ⟨coll', hreplay, hperm'.trans hperm, (hperm'.trans hperm).nodup_iff.mpr hnodup⟩

/-- The first segment is renamed by the merge of the second request before its own task runs. Its
first id is never announced, and the task of the merge deletes it. -/
theorem late_task_announces_new_id :
    ∃ st, (System.start (lineRuntime Text id) docsConfig docsSearchers
        (docsEnv ["east"] ["host"])).run (lineRuntime Text id) linePlatform
        [.write (docsEnv ["east"] ["host"]) (addRequest 97 10),
          .write (docsEnv ["east"] ["host"]) (addRequest 98 20),
          .task (docsEnv ["east"] ["host"]), .task (docsEnv ["east"] ["host"]),
          .task (docsEnv ["east"] ["host"])] = .ok st ∧
      st.writer.callbackRunner = [] ∧ replay (st.requests "docs" "east") = none :=
  exists_ok (by decide +kernel)

/-- Every task runs right after its request. -/
def promptEvents : List (Event Nat Nat) :=
  [.write (docsEnv ["east"] ["host"]) (addRequest 97 10), .task (docsEnv ["east"] ["host"]),
    .write (docsEnv ["east"] ["host"]) (addRequest 98 20), .task (docsEnv ["east"] ["host"]),
    .task (docsEnv ["east"] ["host"])]

/-- The log is then consistent, through a merge. -/
theorem update_log_consistent_prompt :
    ∃ st, (System.start (lineRuntime Text id) docsConfig docsSearchers
        (docsEnv ["east"] ["host"])).run (lineRuntime Text id) linePlatform promptEvents = .ok st ∧
      (st.requests "docs" "east").length = 3 ∧
      ∃ coll, replay (st.requests "docs" "east") = some coll ∧
        coll.Perm ((st.writer.objects.get 0).index.current.map
          (st.writer.objects.get 0).index.idOf) ∧ coll.Nodup := by
  obtain ⟨st, hrun, hlength, ho, hkept, hempty⟩ : ∃ st, (System.start (lineRuntime Text id)
      docsConfig docsSearchers (docsEnv ["east"] ["host"])).run (lineRuntime Text id) linePlatform
        promptEvents = .ok st ∧
      (st.requests "docs" "east").length = 3 ∧ (st.writer.table "docs").lookup "east" = some 0 ∧
      st.writer.Kept "docs" "east" ∧ st.writer.callbackRunner = [] := exists_ok (by decide +kernel)
  exact ⟨st, hrun, hlength, update_log_consistent (lineRuntime Text id) linePlatform docsConfig
    docsSearchers (docsEnv ["east"] ["host"]) _ st hrun (fun _ _ _ _ h => h) "docs" "east" 0 ho
    hkept (by decide +kernel) hempty⟩

end Vecodex
