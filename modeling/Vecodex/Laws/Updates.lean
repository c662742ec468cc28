import Mathlib.Data.List.TakeWhile
import Vecodex.App.Updates
import Vecodex.Laws.Writer

/-!
# Laws of the update calls

A task calls its hosts in order, up to the first one whose call fails (`updateHosts_fst`). One such
host ends the task and the process. So the hosts behind it get no request, and no later task runs:
a task serves all healthy hosts and leaves the queue going if and only if none of its hosts fails,
or it is the last task and the healthy hosts are listed first (`failing_host_iff`).

In a run in which no listed host fails, the process stays alive and every task reaches every host
(`Courier.run_delivers`). The runs of `System` are such runs (`Courier.Mirrors.run`).
-/

namespace Vecodex

open Lib

variable {B Vec Dist Time : Type}

/-! ## The loop over the hosts -/

section Loop

variable (request : UpdateRequest) (ok : String → Bool) (hosts : List String)

/-- The hosts that receive the request are those before the first failing one. -/
theorem updateHosts_fst : (updateHosts request ok hosts).1 =
    (hosts.takeWhile ok).map (fun host => ⟨host, request, true⟩) ++
      ((hosts.dropWhile ok).take 1).map fun host => ⟨host, request, false⟩ := by
  induction hosts with
  | nil => rfl
  | cons host hosts ih =>
    cases hok : ok host with
    | true => simp only [updateHosts, hok, if_true, ih, List.takeWhile_cons, List.dropWhile_cons,
        List.map_cons, List.cons_append]
    | false => simp [updateHosts, hok]

theorem received_iff {host : String} :
    ⟨host, request, true⟩ ∈ (updateHosts request ok hosts).1 ↔ host ∈ hosts.takeWhile ok := by
  simp only [updateHosts_fst, List.mem_append, List.mem_map, UpdateCall.mk.injEq]
  constructor
  · rintro (⟨_, hhost, rfl, -⟩ | ⟨_, -, -, -, hfalse⟩)
    · exact hhost
    · cases hfalse
  · exact fun hhost => .inl ⟨host, hhost, rfl, trivial, trivial⟩

/-- The loop comes to its end when no call fails. -/
theorem updateHosts_snd : (updateHosts request ok hosts).2 =
    if ∀ host ∈ hosts, ok host then .ok () else .error .rpcFailed := by
  induction hosts with
  | nil => rfl
  | cons host hosts ih =>
    cases hok : ok host with
    | true => simp [updateHosts, hok, ih]
    | false => simp [updateHosts, hok]

end Loop

namespace Courier

/-! ## Tasks -/

/-- The next task, with what it leaves. -/
theorem runTask_of_cons {c : Courier B} {task : Task} {tasks : List Task} (round : Round Time)
    (halive : c.terminated = none) (hqueue : c.writer.callbackRunner = task :: tasks) :
    ∃ request, request = task.request (c.writer.objects.get task.object).index ∧ c.runTask round =
      { writer := { c.writer with callbackRunner := tasks }
        ran := c.ran ++ [⟨task, request, round.hosts task,
          (updateHosts request round.ok (round.hosts task)).1⟩]
        terminated :=
          if ∀ host ∈ round.hosts task, round.ok host then none else some .rpcFailed } := by
  refine ⟨_, rfl, ?_⟩
  by_cases hall : ∀ host ∈ round.hosts task, round.ok host = true
  · simp only [runTask, halive, hqueue, updateHosts_snd, if_pos hall]
  · simp only [runTask, halive, hqueue, updateHosts_snd, if_neg hall]

theorem runTask_of_terminated {c : Courier B} (h : c.terminated ≠ none) (round : Round Time) :
    c.runTask round = c := by
  unfold runTask
  split
  · next halive _ => exact absurd halive h
  · rfl

theorem runTasks_of_terminated {c : Courier B} (h : c.terminated ≠ none)
    (rounds : List (Round Time)) : c.runTasks rounds = c := by
  induction rounds with
  | nil => rfl
  | cons round rounds ih =>
    rw [runTasks, List.foldl_cons, runTask_of_terminated h]
    exact ih

/-- Tasks whose calls succeed run to the end of the queue. -/
theorem runTasks_all {c : Courier B} (halive : c.terminated = none) {rounds : List (Round Time)}
    (hlen : rounds.length = c.writer.callbackRunner.length)
    (hok : ∀ round ∈ rounds, ∀ host, round.ok host = true) :
    (c.runTasks rounds).ran.map Dispatch.task =
      c.ran.map Dispatch.task ++ c.writer.callbackRunner := by
  induction rounds generalizing c with
  | nil =>
    rw [List.eq_nil_of_length_eq_zero hlen.symm, List.append_nil]
    rfl
  | cons round rounds ih =>
    cases hqueue : c.writer.callbackRunner with
    | nil =>
      rw [hqueue] at hlen
      cases hlen
    | cons task tasks =>
      obtain ⟨request, -, hrun⟩ := runTask_of_cons round halive hqueue
      have hall : ∀ host ∈ round.hosts task, round.ok host = true := fun host _ =>
        hok round List.mem_cons_self host
      rw [if_pos hall] at hrun
      rw [hqueue, List.length_cons, List.length_cons, Nat.add_right_cancel_iff] at hlen
      have hrest : ((c.runTask round).runTasks rounds).ran.map Dispatch.task =
          (c.runTask round).ran.map Dispatch.task ++ (c.runTask round).writer.callbackRunner := by
        refine ih ?_ ?_ fun r hr => hok r (List.mem_cons_of_mem _ hr)
        · rw [hrun]
        · rw [hrun]
          exact hlen
      rw [runTasks, List.foldl_cons]
      refine hrest.trans ?_
      simp only [hrun, List.map_append, List.map_cons, List.map_nil, List.append_assoc,
        List.singleton_append]

section Head

variable {c : Courier B} {task : Task} {tasks : List Task} (round : Round Time)
  (halive : c.terminated = none) (hqueue : c.writer.callbackRunner = task :: tasks)
include halive hqueue

/-- The hosts a task reaches are those listed before the first failing one. -/
theorem serves_iff :
    (∃ dispatch, (c.runTask round).ran = c.ran ++ [dispatch] ∧ dispatch.task = task ∧
      ∀ host ∈ round.hosts task, round.ok host →
        ⟨host, dispatch.request, true⟩ ∈ dispatch.calls) ↔
    ∀ host ∈ round.hosts task, round.ok host →
      host ∈ (round.hosts task).takeWhile round.ok := by
  obtain ⟨request, -, hrun⟩ := runTask_of_cons round halive hqueue
  constructor
  · rintro ⟨dispatch, hdispatch, -, hreceived⟩ host hhost hok
    have hcalls := hreceived host hhost hok
    rw [hrun, List.append_cancel_left_eq] at hdispatch
    obtain rfl := (List.cons.inj hdispatch).1
    exact (received_iff _ _ _).mp hcalls
  · intro hreached
    refine ⟨_, by rw [hrun], rfl, fun host hhost hok => ?_⟩
    exact (received_iff _ _ _).mpr (hreached host hhost hok)

/-- The tasks behind a task run when none of its hosts fails, or when there are none. -/
theorem goes_on_iff :
    (∀ later : List (Round Time), later.length = tasks.length →
      (∀ r ∈ later, ∀ host, r.ok host = true) →
      ((c.runTask round).runTasks later).ran.map Dispatch.task =
        c.ran.map Dispatch.task ++ task :: tasks) ↔
    (∀ host ∈ round.hosts task, round.ok host) ∨ tasks = [] := by
  obtain ⟨request, -, hrun⟩ := runTask_of_cons round halive hqueue
  have hran : (c.runTask round).ran.map Dispatch.task = c.ran.map Dispatch.task ++ [task] := by
    rw [hrun, List.map_append]
    rfl
  constructor
  · intro hlater
    rw [or_iff_not_imp_left]
    intro hfails
    have hdead : (c.runTask round).terminated ≠ none := by
      rw [hrun, if_neg hfails]
      exact Option.some_ne_none _
    have hstuck := hlater (List.replicate tasks.length ⟨round.env, fun _ => true⟩)
      List.length_replicate fun r hr host => by rw [List.eq_of_mem_replicate hr]
    rw [runTasks_of_terminated hdead, hran, List.append_cancel_left_eq] at hstuck
    exact (List.cons.inj hstuck).2.symm
  · rintro (hall | rfl) later hlen hlater
    · rw [if_pos hall] at hrun
      rw [runTasks_all (by rw [hrun]) (by rw [hrun]; exact hlen) hlater, hran, hrun,
        List.append_assoc]
      rfl
    · rw [List.eq_nil_of_length_eq_zero hlen]
      exact hran

end Head

end Courier

/-- Every healthy host of a task gets its request and all later tasks of the queue run, if and only
if none of the hosts fails, or there is no later task and every healthy host is listed before the
first failing one. -/
theorem failing_host_iff (c : Courier B) (task : Task) (tasks : List Task) (round : Round Time)
    (halive : c.terminated = none) (hqueue : c.writer.callbackRunner = task :: tasks) :
    ((∃ dispatch, (c.runTask round).ran = c.ran ++ [dispatch] ∧ dispatch.task = task ∧
        ∀ host ∈ round.hosts task, round.ok host →
          ⟨host, dispatch.request, true⟩ ∈ dispatch.calls) ∧
      ∀ later : List (Round Time), later.length = tasks.length →
        (∀ r ∈ later, ∀ host, r.ok host = true) →
        ((c.runTask round).runTasks later).ran.map Dispatch.task =
          c.ran.map Dispatch.task ++ task :: tasks) ↔
    (∀ host ∈ round.hosts task, round.ok host) ∨
      tasks = [] ∧ ∀ host ∈ round.hosts task, round.ok host →
        host ∈ (round.hosts task).takeWhile round.ok := by
  have hreached : (∀ host ∈ round.hosts task, round.ok host) → ∀ host ∈ round.hosts task,
      round.ok host → host ∈ (round.hosts task).takeWhile round.ok := by
    intro hall host hhost _
    rwa [List.takeWhile_eq_self_iff.mpr hall]
  rw [Courier.serves_iff round halive hqueue, Courier.goes_on_iff round halive hqueue]
  tauto

/-- One shard with the hosts `a` and `b`. -/
def hostPair : Env Nat := docsEnv ["east"] ["a", "b"]

/-- A writer that finds them. -/
def pairCourier : Courier (List Nat) := .start (lineRuntime Text id) docsConfig hostPair

/-- Two documents are added, which leaves three tasks in the queue. -/
def twoWrites : List (CourierEvent Nat Nat) :=
  [.write hostPair (addRequest 1 10), .write hostPair (addRequest 2 20)]

/-- The host `a` fails in the first task. The host `b` gets nothing, and the two tasks behind it
stay in the queue. -/
theorem failing_host_starves :
    (pairCourier.run (lineRuntime Text id) (twoWrites ++
        [.task ⟨hostPair, fun host => host != "a"⟩, .task ⟨hostPair, fun _ => true⟩])).toOption.map
      (fun c => (c.ran.map fun d => d.calls.map fun call => (call.host, call.ok),
        c.writer.callbackRunner.length, c.terminated)) =
      some ([[("a", false)]], 2, some .rpcFailed) := by
  decide +kernel

theorem failing_host_iff_healthy :
    ∃ c task tasks, pairCourier.run (lineRuntime Text id) twoWrites = .ok c ∧
      c.writer.callbackRunner = task :: tasks ∧ tasks.length = 2 ∧
      ∀ later : List (Round Nat), later.length = tasks.length →
        (∀ r ∈ later, ∀ host, r.ok host = true) →
        ((c.runTask ⟨hostPair, fun _ => true⟩).runTasks later).ran.map Dispatch.task =
          c.ran.map Dispatch.task ++ task :: tasks := by
  obtain ⟨c, hc, halive, hlen⟩ : ∃ c, pairCourier.run (lineRuntime Text id) twoWrites = .ok c ∧
      c.terminated = none ∧ c.writer.callbackRunner.length = 3 := exists_ok (by decide +kernel)
  obtain ⟨task, tasks, hqueue⟩ := List.exists_cons_of_length_pos (by rw [hlen]; decide)
  have hserved := (failing_host_iff c task tasks ⟨hostPair, fun _ => true⟩ halive hqueue).mpr
    (.inl fun _ _ => rfl)
  rw [hqueue, List.length_cons, Nat.add_right_cancel_iff] at hlen
  exact ⟨c, task, tasks, hc, hqueue, hlen, hserved.2⟩

/-! ## Runs -/

namespace Courier

/-- A task has reached all its hosts. -/
def Delivered (d : Dispatch) : Prop := d.calls = d.hosts.map fun host => ⟨host, d.request, true⟩

theorem updateHosts_of_ok {request : UpdateRequest} {ok : String → Bool} {hosts : List String}
    (h : ∀ host ∈ hosts, ok host) :
    (updateHosts request ok hosts).1 = hosts.map fun host => ⟨host, request, true⟩ := by
  rw [updateHosts_fst, List.takeWhile_eq_self_iff.mpr h, List.dropWhile_eq_nil_iff.mpr h]
  exact List.append_nil _

/-- A process that is alive and whose tasks have all reached their hosts. -/
structure Healthy (c : Courier B) : Prop where
  alive : c.terminated = none
  delivered : ∀ d ∈ c.ran, Delivered d

theorem Healthy.runTask {c : Courier B} (h : c.Healthy) {round : Round Time}
    (hok : ∀ task, ∀ host ∈ round.hosts task, round.ok host) : (c.runTask round).Healthy := by
  cases hqueue : c.writer.callbackRunner with
  | nil =>
    have hsame : c.runTask round = c := by simp only [Courier.runTask, h.alive, hqueue]
    rwa [hsame]
  | cons task tasks =>
    obtain ⟨request, -, hrun⟩ := runTask_of_cons round h.alive hqueue
    rw [hrun, if_pos (hok task)]
    refine ⟨rfl, fun d hd => ?_⟩
    rcases List.mem_append.mp hd with hd | hd
    · exact h.delivered d hd
    · rw [List.mem_singleton.mp hd]
      exact updateHosts_of_ok (hok task)

variable [LT Time] [DecidableLT Time]

/-- In a run in which no listed host fails, the process stays alive and every task reaches every
host. -/
theorem run_delivers {rt : Runtime B Text Vec Dist} {c c' : Courier B}
    {events : List (CourierEvent Vec Time)} (hrun : c.run rt events = .ok c') (h : c.Healthy)
    (hok : ∀ round, .task round ∈ events → ∀ task, ∀ host ∈ round.hosts task, round.ok host) :
    c'.Healthy := by
  refine foldlM_preserves ?_ h hrun
  intro c c' event hevent h hexec
  cases event with
  | write env request =>
    rw [exec, h.alive] at hexec
    obtain ⟨⟨writer, status⟩, -, heq⟩ := bind_eq_ok.mp hexec
    cases heq
    exact ⟨rfl, h.delivered⟩
  | task round =>
    cases hexec
    exact h.runTask (hok round hevent)

/-! ## The whole system -/

/-- The entry of a task in the log of the whole system. -/
def sent (d : Dispatch) : Sent := ⟨d.task, d.request⟩

/-- The writer of a system, as far as its tasks have run. -/
structure Mirrors (st : System B) (c : Courier B) : Prop where
  writer : c.writer = st.writer
  alive : c.terminated = none
  ran : c.ran.map sent = st.sent

/-- An event of a system, in which every update call succeeds. -/
def ofEvent : Event Vec Time → CourierEvent Vec Time
  | .write env request => .write env request
  | .task env => .task ⟨env, fun _ => true⟩

theorem Mirrors.exec {rt : Runtime B Text Vec Dist} {platform : Platform B} {st st' : System B}
    {c : Courier B} (h : Mirrors st c) {event : Event Vec Time}
    (hexec : st.exec rt platform event = .ok st') :
    ∃ c', c.exec rt (ofEvent event) = .ok c' ∧ Mirrors st' c' := by
  cases event with
  | write env request =>
    obtain ⟨⟨writer, status⟩, hwrite, heq⟩ := bind_eq_ok.mp hexec
    cases heq
    refine ⟨{ c with writer := writer }, ?_, rfl, h.alive, h.ran⟩
    simp only [ofEvent, Courier.exec, h.alive, h.writer, hwrite]
    rfl
  | task env =>
    refine ⟨_, rfl, ?_⟩
    replace hexec : st.runTask rt platform env = .ok st' := hexec
    unfold System.runTask at hexec
    split at hexec
    · next hqueue =>
      cases hexec
      have hsame : c.runTask ⟨env, fun _ => true⟩ = c := by
        simp only [Courier.runTask, h.alive, h.writer, hqueue]
      rwa [hsame]
    · next task tasks hqueue =>
      obtain ⟨searchers, -, heq⟩ := bind_eq_ok.mp hexec
      cases heq
      obtain ⟨request, hrequest, hrun⟩ :=
        runTask_of_cons ⟨env, fun _ => true⟩ h.alive (h.writer ▸ hqueue)
      rw [h.writer] at hrequest hrun
      refine ⟨by rw [hrun], by rw [hrun, if_pos fun _ _ => rfl], ?_⟩
      rw [hrun, List.map_append, h.ran, hrequest]
      rfl

/-- A run of the whole system is a run of its writer in which every update call succeeds. -/
theorem Mirrors.run {rt : Runtime B Text Vec Dist} {platform : Platform B} {st st' : System B}
    {c : Courier B} (h : Mirrors st c) {events : List (Event Vec Time)}
    (hrun : st.run rt platform events = .ok st') :
    ∃ c', c.run rt (events.map ofEvent) = .ok c' ∧ Mirrors st' c' := by
  induction events generalizing st c with
  | nil =>
    cases hrun
    exact ⟨c, rfl, h⟩
  | cons event events ih =>
    rw [System.run, List.foldlM_cons] at hrun
    obtain ⟨next, hnext, hrest⟩ := bind_eq_ok.mp hrun
    obtain ⟨cnext, hcnext, hmirrors⟩ := h.exec hnext
    obtain ⟨c', hc', hend⟩ := ih hmirrors hrest
    refine ⟨c', ?_, hend⟩
    rw [List.map_cons, Courier.run, List.foldlM_cons, hcnext, ok_bind]
    exact hc'

end Courier

end Vecodex
