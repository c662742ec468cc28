import Vecodex.App.Locks

/-!
# The handlers do not wait in a circle

The locks of a process have an order: first `runner_lock` or `mutex_`, then `segments_m_` of an
index, then `m_` of a segment, and the exposer's lock last. `mergeSegment` is the one place that
takes two locks of a kind, and it does so with `segments_m_` of its index held exclusively.
-/

namespace Vecodex

open Lib LockStep

namespace LockName

def rank : LockName → Nat
  | runnerLock | mutex => 0
  | segments _ => 1
  | segment _ _ => 2
  | exposer => 3

/-- Two segments of one index are locked under the lock of the index. -/
def guard : LockName → LockName
  | segment index _ => segments index
  | l => l

/-- The locks in hand all have lower ranks. -/
theorem mayAsk_of_lt {held : List (LockName × Mode)} {l : LockName}
    (h : ∀ k ∈ held, k.1.rank < l.rank) : MayAsk rank guard held l :=
  fun k hk => Or.inl (h k hk)

theorem closed_leaf {held : List (LockName × Mode)} {l : LockName} (mode : Mode)
    (h : ∀ k ∈ held, k.1.rank < l.rank) : Closed rank guard held (holding l mode []) :=
  Closed.holding (mayAsk_of_lt h) closed_nil

theorem closed_metrics {held : List (LockName × Mode)} (h : ∀ k ∈ held, k.1.rank < 3) (n : Nat) :
    Closed rank guard held (metrics n) :=
  Closed.flatMap fun _ _ => closed_leaf .exclusive h

theorem closed_add {held : List (LockName × Mode)} (h : ∀ k ∈ held, k.1.rank < 1) (index : Nat)
    (pairs : List Pair) : Closed rank guard held (add index pairs) := by
  refine Closed.holding (mayAsk_of_lt h) (Closed.flatMap fun pair _ => ?_)
  have hbelow : ∀ k ∈ (segments index, Mode.exclusive) :: held, k.1.rank < 2 := by
    intro k hk
    rcases List.mem_cons.mp hk with rfl | hk
    · exact Nat.lt_succ_self 1
    · exact Nat.lt_trans (h k hk) (by decide)
  refine Closed.holding (mayAsk_of_lt hbelow) (Closed.holding (fun k hk => ?_) closed_nil)
  rcases List.mem_cons.mp hk with rfl | hk
  · refine Or.inr ⟨fun heq => ?_, rfl, rfl, List.mem_cons_of_mem _ List.mem_cons_self⟩
    exact pair.2 (LockName.segment.inj heq).2.symm
  · exact Or.inl (hbelow k hk)

/-- Every segment of an index is locked alone. -/
theorem closed_each {held : List (LockName × Mode)} (h : ∀ k ∈ held, k.1.rank < 1) (index : Nat)
    (mode mode' : Mode) (ps : List Nat) :
    Closed rank guard held (holding (segments index) mode
      (ps.flatMap fun p => holding (segment index p) mode' [])) := by
  refine Closed.holding (mayAsk_of_lt h) (Closed.flatMap fun p _ => closed_leaf mode' ?_)
  intro k hk
  rcases List.mem_cons.mp hk with rfl | hk
  · exact Nat.lt_succ_self 1
  · exact Nat.lt_trans (h k hk) (Nat.lt_succ_self 1)

theorem closed_locks (handler : Handler) : Closed rank guard [] handler.locks := by
  have hnone : ∀ n, ∀ k ∈ ([] : List (LockName × Mode)), k.1.rank < n := by
    intro n k hk
    cases hk
  have hrunner : ∀ n, ∀ k ∈ [(runnerLock, Mode.exclusive)], k.1.rank < n + 1 := by
    intro n k hk
    rw [List.mem_singleton.mp hk]
    exact Nat.succ_pos n
  cases handler with
  | writeAdd before index pairs after =>
    exact Closed.holding (mayAsk_of_lt (hnone 0)) (((closed_metrics (hrunner 2) before).append
      (closed_add (hrunner 0) index pairs)).append (closed_metrics (hrunner 2) after))
  | writeErase before index ps after =>
    exact Closed.holding (mayAsk_of_lt (hnone 0)) (((closed_metrics (hrunner 2) before).append
      (closed_each (hrunner 0) index .exclusive .exclusive ps)).append
        (closed_metrics (hrunner 2) after))
  | writeRefused before =>
    exact Closed.holding (mayAsk_of_lt (hnone 0)) (closed_metrics (hrunner 2) before)
  | task before inserted =>
    exact Closed.holding (mayAsk_of_lt (hnone 0)) ((closed_metrics (hrunner 2) before).append
      (Closed.flatMap fun _ _ => closed_leaf .shared (hrunner 1)))
  | search before shards =>
    exact (closed_metrics (hnone 3) before).append (Closed.flatMap fun shard _ =>
      closed_each (hnone 1) shard.1 .shared .shared shard.2)
  | update before index added deleted =>
    have hcall : Closed rank guard [] (holding (segments index) .exclusive []) :=
      closed_leaf .exclusive (hnone 1)
    exact ((closed_metrics (hnone 3) before).append (Closed.flatMap fun _ _ => hcall)).append
      (Closed.flatMap fun _ _ => hcall)
  | coordinate before inside =>
    refine (closed_metrics (hnone 3) before).append (Closed.holding (mayAsk_of_lt (hnone 0))
      (closed_metrics (fun k hk => ?_) inside))
    rw [List.mem_singleton.mp hk]
    decide

end LockName

variable {T : Type} [DecidableEq T]

/-- Whatever handlers the threads run one after the other, and whatever turns they have had, the
turns can go on so that every thread comes to the end of all its handlers: no thread waits for good,
neither for itself nor in a circle of others. -/
theorem handlers_complete [Fintype T] (handlers : T → List Handler) (schedule : List T) :
    ∃ later, ∀ t, (((LockStep.start fun t => (handlers t).flatMap Handler.locks).run
      LockStep.next (schedule ++ later)).thread t).rest = [] := by
  have hordered : ∀ t, Ordered LockName.rank LockName.guard []
      ((handlers t).flatMap Handler.locks) :=
    fun t => (Closed.flatMap fun handler _ => LockName.closed_locks handler).ordered
  have hbound : ∀ l : LockName, l.rank < 4 := by
    intro l
    cases l <;> simp [LockName.rank]
  obtain ⟨later, hlater⟩ := (consistent_run hordered schedule).exists_completion hbound
  exact ⟨later, fun t => by rw [Threads.run_append]; exact hlater t⟩

end Vecodex
