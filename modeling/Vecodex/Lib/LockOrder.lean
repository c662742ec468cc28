import Mathlib.Algebra.BigOperators.Group.Finset.Basic
import Mathlib.Algebra.Order.BigOperators.Group.Finset
import Mathlib.Data.Fintype.Basic
import Vecodex.Lib.ReadersWriter

/-!
# The order of locks

Threads that take and give back many readers-writer locks. A program is the list of these steps, and
a thread waits while it cannot get the lock it asks for.

The locks have ranks, and a thread asks for a lock of a higher rank than those it holds. There is
one exception: it may hold a lock of the same rank when it holds a third lock, the guard of both,
exclusively. Programs that keep to this order never wait for each other in a circle
(`exists_turn`): a thread that waits for a lock waits for one whose holder goes on, or waits for a
lock of a higher rank, or is the only thread that may do otherwise. As programs are finite, all of
them can be brought to their ends (`exists_completion`).
-/

namespace Vecodex.Lib

inductive LockStep (L : Type)
  | acquire (l : L) (mode : Mode)
  | release (l : L)

/-- The locks a thread holds, and the rest of its program. -/
structure LockThread (L : Type) where
  held : List (L × Mode)
  rest : List (LockStep L)

namespace Lock

variable {T : Type}

def Holds (lock : Lock T) (t : T) (mode : Mode) : Prop :=
  match lock with
  | shared readers => t ∈ readers ∧ mode = .shared
  | exclusive holder => t = holder ∧ mode = .exclusive

/-- Only one thread holds a lock exclusively. -/
theorem Holds.unique {lock : Lock T} {t u : T} (ht : lock.Holds t .exclusive)
    (hu : lock.Holds u .exclusive) : t = u := by
  cases lock with
  | shared readers => cases ht.2
  | exclusive holder => exact ht.1.trans hu.1.symm

variable [DecidableEq T]

theorem holds_acquire {lock lock' : Lock T} {t : T} {mode : Mode}
    (h : lock.acquire t mode = some lock') (u : T) (m : Mode) :
    lock'.Holds u m ↔ (u = t ∧ m = mode) ∨ lock.Holds u m := by
  rcases acquire_eq_some h with ⟨readers, rfl, rfl, rfl⟩ | ⟨rfl, rfl, rfl⟩
  · simp only [Holds, Finset.mem_insert]
    tauto
  · simp [Holds]

theorem holds_release {lock : Lock T} {t : T} {mode : Mode} (h : lock.Holds t mode) (u : T)
    (m : Mode) : (lock.release t).Holds u m ↔ u ≠ t ∧ lock.Holds u m := by
  cases lock with
  | shared readers =>
    simp only [release, Holds, Finset.mem_erase]
    tauto
  | exclusive holder =>
    obtain ⟨rfl, -⟩ := h
    simp only [release, Holds, Finset.notMem_empty, false_and, false_iff, not_and]
    exact fun hne heq => absurd heq hne

/-- A lock that cannot be had is held. -/
theorem holds_of_waiting {lock : Lock T} {t : T} {mode : Mode} (h : lock.acquire t mode = none) :
    ∃ u m, lock.Holds u m := by
  cases lock with
  | exclusive holder => exact ⟨holder, .exclusive, rfl, rfl⟩
  | shared readers =>
    cases mode with
    | shared => cases h
    | exclusive =>
      have hne : readers ≠ ∅ := by
        intro hempty
        rw [hempty] at h
        cases h
      obtain ⟨u, hu⟩ := Finset.nonempty_iff_ne_empty.mpr hne
      exact ⟨u, .shared, hu, rfl⟩

end Lock

namespace LockStep

variable {T L : Type} [DecidableEq T] [DecidableEq L]

def next (t : T) (l : LockThread L) (table : L → Lock T) :
    Option (LockThread L × (L → Lock T)) :=
  match l.rest with
  | [] => none
  | acquire k mode :: rest =>
    ((table k).acquire t mode).map fun lock =>
      (⟨(k, mode) :: l.held, rest⟩, Function.update table k lock)
  | release k :: rest =>
    some (⟨l.held.filter fun h => h.1 ≠ k, rest⟩,
      Function.update table k ((table k).release t))

def start (program : T → List (LockStep L)) : Threads T (LockThread L) (L → Lock T) :=
  ⟨fun _ => .shared ∅, fun t => ⟨[], program t⟩⟩

/-- With these locks in its hands, the program may ask for the lock. -/
def MayAsk (rank : L → Nat) (guard : L → L) (held : List (L × Mode)) (l : L) : Prop :=
  ∀ h ∈ held, rank h.1 < rank l ∨
    (h.1 ≠ l ∧ rank h.1 = rank l ∧ guard h.1 = guard l ∧ (guard l, .exclusive) ∈ held)

/-- The program keeps to the order, and gives back what it takes. -/
def Ordered (rank : L → Nat) (guard : L → L) : List (L × Mode) → List (LockStep L) → Prop
  | held, [] => held = []
  | held, acquire l mode :: rest =>
    MayAsk rank guard held l ∧ Ordered rank guard ((l, mode) :: held) rest
  | held, release l :: rest =>
    (∃ mode, (l, mode) ∈ held) ∧ Ordered rank guard (held.filter fun h => h.1 ≠ l) rest

/-- A lock around a part of a program. -/
def holding (l : L) (mode : Mode) (body : List (LockStep L)) : List (LockStep L) :=
  acquire l mode :: (body ++ [release l])

/-- The part of a program keeps to the order and gives back what it takes, with these locks in its
hands. -/
def Closed (rank : L → Nat) (guard : L → L) (held : List (L × Mode)) (body : List (LockStep L)) :
    Prop :=
  ∀ rest, Ordered rank guard held rest → Ordered rank guard held (body ++ rest)

section Closed

variable {rank : L → Nat} {guard : L → L} {held : List (L × Mode)} {l : L}
  {body body' : List (LockStep L)}

theorem closed_nil : Closed rank guard held [] := fun _ h => h

theorem Closed.append (h : Closed rank guard held body) (h' : Closed rank guard held body') :
    Closed rank guard held (body ++ body') := by
  intro rest hrest
  rw [List.append_assoc]
  exact h _ (h' rest hrest)

theorem Closed.flatMap {α : Type} {f : α → List (LockStep L)} {as : List α}
    (h : ∀ a ∈ as, Closed rank guard held (f a)) : Closed rank guard held (as.flatMap f) := by
  induction as with
  | nil => exact closed_nil
  | cons a as ih =>
    rw [List.flatMap_cons]
    exact (h a List.mem_cons_self).append (ih fun b hb => h b (List.mem_cons_of_mem _ hb))

theorem Closed.holding (hask : MayAsk rank guard held l) {mode : Mode}
    (h : Closed rank guard ((l, mode) :: held) body) :
    Closed rank guard held (LockStep.holding l mode body) := by
  intro rest hrest
  have hback : ((l, mode) :: held).filter (fun h => h.1 ≠ l) = held := by
    rw [List.filter_cons_of_neg (by simp), List.filter_eq_self]
    intro k hk
    rcases hask k hk with hlt | ⟨hne, -⟩
    · exact decide_eq_true fun heq => Nat.lt_irrefl _ (heq ▸ hlt)
    · exact decide_eq_true hne
  have hlist : LockStep.holding l mode body ++ rest =
      acquire l mode :: (body ++ release l :: rest) := by simp [LockStep.holding]
  rw [hlist]
  refine ⟨hask, h _ ⟨⟨mode, List.mem_cons_self⟩, ?_⟩⟩
  rw [hback]
  exact hrest

theorem Closed.ordered (h : Closed rank guard [] body) : Ordered rank guard [] body := by
  have hordered := h [] rfl
  rwa [List.append_nil] at hordered

end Closed

/-- The table says who holds what, and all threads keep to the order. -/
structure Consistent (rank : L → Nat) (guard : L → L)
    (c : Threads T (LockThread L) (L → Lock T)) : Prop where
  ordered : ∀ t, Ordered rank guard (c.thread t).held (c.thread t).rest
  holds : ∀ l t mode, (l, mode) ∈ (c.thread t).held ↔ (c.shared l).Holds t mode

variable {rank : L → Nat} {guard : L → L} {c : Threads T (LockThread L) (L → Lock T)}

omit [DecidableEq T] in
theorem Consistent.start {program : T → List (LockStep L)}
    (h : ∀ t, Ordered rank guard [] (program t)) :
    Consistent rank guard (start program) where
  ordered := h
  holds := fun l t mode => by simp [LockStep.start, Lock.Holds]

/-- The turn of a thread that asks for a lock and gets it. -/
theorem Consistent.acquire (h : Consistent rank guard c) {t : T} {k : L} {mode : Mode}
    {rest : List (LockStep L)} (hrest : (c.thread t).rest = .acquire k mode :: rest)
    {lock : Lock T} (hlock : (c.shared k).acquire t mode = some lock) :
    Consistent rank guard ⟨Function.update c.shared k lock,
      Function.update c.thread t ⟨(k, mode) :: (c.thread t).held, rest⟩⟩ := by
  have hordered := h.ordered t
  rw [hrest] at hordered
  refine ⟨fun u => ?_, fun l u m => ?_⟩
  · by_cases hu : u = t
    · subst hu
      simp only [Function.update_self]
      exact hordered.2
    · simp only [Function.update_of_ne hu]
      exact h.ordered u
  · have hold := h.holds l u m
    by_cases hl : l = k
    · subst hl
      simp only [Function.update_self, Lock.holds_acquire hlock, ← hold]
      by_cases hu : u = t
      · subst hu
        simp
      · simp [hu]
    · simp only [Function.update_of_ne hl, ← hold]
      by_cases hu : u = t
      · subst hu
        simp [hl]
      · simp [Function.update_of_ne hu]

/-- The turn of a thread that gives a lock back. -/
theorem Consistent.release (h : Consistent rank guard c) {t : T} {k : L}
    {rest : List (LockStep L)} (hrest : (c.thread t).rest = .release k :: rest) :
    Consistent rank guard ⟨Function.update c.shared k ((c.shared k).release t),
      Function.update c.thread t ⟨(c.thread t).held.filter fun h => h.1 ≠ k, rest⟩⟩ := by
  have hordered := h.ordered t
  rw [hrest] at hordered
  obtain ⟨⟨mode, hmem⟩, htail⟩ := hordered
  have hholds := (h.holds k t mode).mp hmem
  refine ⟨fun u => ?_, fun l u m => ?_⟩
  · by_cases hu : u = t
    · subst hu
      simp only [Function.update_self]
      exact htail
    · simp only [Function.update_of_ne hu]
      exact h.ordered u
  · have hold := h.holds l u m
    by_cases hl : l = k
    · subst hl
      simp only [Function.update_self, Lock.holds_release hholds, ← hold]
      by_cases hu : u = t
      · subst hu
        simp
      · simp [hu]
    · simp only [Function.update_of_ne hl, ← hold]
      by_cases hu : u = t
      · subst hu
        simp [hl]
      · simp [Function.update_of_ne hu]

theorem Consistent.step (h : Consistent rank guard c) {t : T} {l : LockThread L}
    {table : L → Lock T} (hnext : next t (c.thread t) c.shared = some (l, table)) :
    Consistent rank guard ⟨table, Function.update c.thread t l⟩ ∧
      l.rest.length + 1 = (c.thread t).rest.length := by
  unfold next at hnext
  split at hnext
  · cases hnext
  · next k mode rest hrest =>
    obtain ⟨lock, hlock, heq⟩ := Option.map_eq_some_iff.mp hnext
    cases heq
    exact ⟨h.acquire hrest hlock, by rw [hrest]; rfl⟩
  · next k rest hrest =>
    cases hnext
    exact ⟨h.release hrest, by rw [hrest]; rfl⟩

theorem consistent_run {program : T → List (LockStep L)}
    (h : ∀ t, Ordered rank guard [] (program t)) (schedule : List T) :
    Consistent rank guard ((start program).run next schedule) :=
  Threads.run_keeps (fun _ _ _ _ hc hnext => (hc.step hnext).1) (.start h) schedule

/-! ## No circles -/

/-- The thread asks for the lock. -/
def Asks (c : Threads T (LockThread L) (L → Lock T)) (t : T) (l : L) : Prop :=
  ∃ mode rest, (c.thread t).rest = .acquire l mode :: rest

/-- A thread that holds a lock and cannot take its turn asks for another one, in order. -/
theorem Consistent.asks (h : Consistent rank guard c)
    (hstuck : ∀ t, next t (c.thread t) c.shared = none) {t : T}
    (hrest : (c.thread t).rest ≠ []) :
    ∃ l, Asks c t l ∧ MayAsk rank guard (c.thread t).held l ∧ ∃ u m, (c.shared l).Holds u m := by
  have hnone := hstuck t
  have hordered := h.ordered t
  unfold next at hnone
  cases hsteps : (c.thread t).rest with
  | nil => exact absurd hsteps hrest
  | cons step rest =>
    rw [hsteps] at hnone hordered
    cases step with
    | release k => cases hnone
    | acquire k mode =>
      exact ⟨k, ⟨mode, rest, hsteps⟩, hordered.1,
        Lock.holds_of_waiting (Option.map_eq_none_iff.mp hnone)⟩

omit [DecidableEq T] in
/-- A thread with a lock has not come to its end. -/
theorem Consistent.rest_ne_nil (h : Consistent rank guard c) {t : T} {l : L} {mode : Mode}
    (hmem : (l, mode) ∈ (c.thread t).held) : (c.thread t).rest ≠ [] := by
  intro hnil
  have hordered := h.ordered t
  rw [hnil] at hordered
  rw [show (c.thread t).held = [] from hordered] at hmem
  cases hmem

/-- When nobody can take a turn, somebody waits for a lock of a still higher rank. -/
theorem Consistent.higher (h : Consistent rank guard c)
    (hstuck : ∀ t, next t (c.thread t) c.shared = none) {l : L} {u : T} {m : Mode}
    (hu : (c.shared l).Holds u m) :
    ∃ l' u' m', rank l < rank l' ∧ (c.shared l').Holds u' m' := by
  have hmem := (h.holds l u m).mpr hu
  obtain ⟨l₂, -, hmay, u₂, m₂, hu₂⟩ := h.asks hstuck (h.rest_ne_nil hmem)
  rcases hmay _ hmem with hlt | ⟨-, hrank, -, hguard⟩
  · exact ⟨l₂, u₂, m₂, hlt, hu₂⟩
  · -- the holder has the guard, so the thread that keeps it waiting has not
    have hmem₂ := (h.holds l₂ u₂ m₂).mpr hu₂
    obtain ⟨l₃, -, hmay₂, u₃, m₃, hu₃⟩ := h.asks hstuck (h.rest_ne_nil hmem₂)
    rcases hmay₂ _ hmem₂ with hlt | ⟨-, -, heq, hguard₂⟩
    · exact ⟨l₃, u₃, m₃, hrank.trans_lt hlt, hu₃⟩
    · rw [← heq] at hguard₂
      obtain rfl := ((h.holds _ _ _).mp hguard).unique ((h.holds _ _ _).mp hguard₂)
      rcases hmay _ hmem₂ with hlt | ⟨hne, -⟩
      · exact absurd hlt (Nat.lt_irrefl _)
      · exact absurd rfl hne

/-- Some thread can take a turn until all have come to their ends. -/
theorem Consistent.exists_turn (h : Consistent rank guard c) {bound : Nat}
    (hbound : ∀ l, rank l < bound) {t : T} (ht : (c.thread t).rest ≠ []) :
    ∃ u, (next u (c.thread u) c.shared).isSome := by
  by_contra hnone
  have hstuck : ∀ u, next u (c.thread u) c.shared = none := by
    intro u
    by_contra hsome
    exact hnone ⟨u, Option.isSome_iff_ne_none.mpr hsome⟩
  have hall : ∀ n, ∃ l u m, n ≤ rank l ∧ (c.shared l).Holds u m := by
    intro n
    induction n with
    | zero =>
      obtain ⟨l, -, -, u, m, hu⟩ := h.asks hstuck ht
      exact ⟨l, u, m, Nat.zero_le _, hu⟩
    | succ n ih =>
      obtain ⟨l, u, m, hle, hu⟩ := ih
      obtain ⟨l', u', m', hlt, hu'⟩ := h.higher hstuck hu
      exact ⟨l', u', m', Nat.lt_of_le_of_lt hle hlt, hu'⟩
  obtain ⟨l, u, m, hle, -⟩ := hall bound
  exact absurd (hbound l) (Nat.not_lt.mpr hle)

/-- The turns can be given so that all programs come to their ends. -/
theorem Consistent.exists_completion [Fintype T] (h : Consistent rank guard c) {bound : Nat}
    (hbound : ∀ l, rank l < bound) :
    ∃ schedule, ∀ t, ((c.run next schedule).thread t).rest = [] := by
  -- by induction on the number of steps that are left in all programs
  induction hn : ∑ t, (c.thread t).rest.length using Nat.strong_induction_on generalizing c with
  | _ n ih =>
    by_cases hdone : ∀ t, (c.thread t).rest = []
    · exact ⟨[], hdone⟩
    · obtain ⟨t, ht⟩ := not_forall.mp hdone
      obtain ⟨u, hu⟩ := h.exists_turn hbound ht
      obtain ⟨⟨l, table⟩, hnext⟩ := Option.isSome_iff_exists.mp hu
      obtain ⟨hc, hlen⟩ := h.step hnext
      have hlt : ∑ t, (Function.update c.thread u l t).rest.length < n := by
        rw [← hn]
        refine Finset.sum_lt_sum (fun v _ => ?_) ⟨u, Finset.mem_univ u, ?_⟩
        · by_cases hv : v = u
          · subst hv
            rw [Function.update_self]
            omega
          · rw [Function.update_of_ne hv]
        · rw [Function.update_self]
          omega
      obtain ⟨schedule, hschedule⟩ := ih _ hlt hc rfl
      refine ⟨u :: schedule, fun v => ?_⟩
      have hstep : c.step next u = ⟨table, Function.update c.thread u l⟩ := by
        simp only [Threads.step, hnext]
      have hrun : c.run next (u :: schedule) = (c.step next u).run next schedule := rfl
      rw [hrun, hstep]
      exact hschedule v

end LockStep

end Vecodex.Lib
