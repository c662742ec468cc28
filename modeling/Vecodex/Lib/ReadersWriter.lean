import Mathlib.Data.Finset.Basic
import Vecodex.Lib.Threads

/-!
# Calls under a readers-writer lock

An object whose calls hold one lock from beginning to end, some of them shared and some
exclusively. The body of a call is a sequence of accesses to the value of the object (`Proc`), and
between any two of them other threads may take their turns. A call that holds the lock shared only
reads.

`linear_run` is what the lock is for. The history in the order in which the calls gave the lock back
explains what the calls returned and the value that is left, as if every call had been made in one
piece.
-/

namespace Vecodex.Lib

/-! ## Bodies -/

/-- A sequence of accesses: each reads the value, writes it, and goes on with what it has read. -/
inductive Proc (σ ρ : Type)
  | done (r : ρ)
  | access (write : σ → σ) (next : σ → Proc σ ρ)

namespace Proc

variable {σ ρ π : Type}

/-- The body without anyone in between: what it returns and the value it leaves. -/
def run : Proc σ ρ → σ → ρ × σ
  | done r, s => (r, s)
  | access write next, s => (next s).run (write s)

def bind : Proc σ ρ → (ρ → Proc σ π) → Proc σ π
  | done r, f => f r
  | access write next, f => access write fun s => (next s).bind f

/-- One access that only reads. -/
def read (f : σ → ρ) : Proc σ ρ := access id fun s => done (f s)

/-- One access that writes. -/
def modify (f : σ → σ) : Proc σ Unit := access f fun _ => done ()

@[simp] theorem run_done (r : ρ) (s : σ) : (done r : Proc σ ρ).run s = (r, s) := rfl

@[simp] theorem run_read (f : σ → ρ) (s : σ) : (read f).run s = (f s, s) := rfl

@[simp] theorem run_modify (f : σ → σ) (s : σ) : (modify f).run s = ((), f s) := rfl

@[simp] theorem run_bind (p : Proc σ ρ) (f : ρ → Proc σ π) (s : σ) :
    (p.bind f).run s = (f (p.run s).1).run (p.run s).2 := by
  induction p generalizing s with
  | done r => rfl
  | access write next ih => exact ih s (write s)

/-- All accesses only read. -/
def ReadOnly : Proc σ ρ → Prop
  | done _ => True
  | access write next => (∀ s, write s = s) ∧ ∀ s, (next s).ReadOnly

theorem readOnly_read (f : σ → ρ) : (read f).ReadOnly := ⟨fun _ => rfl, fun _ => trivial⟩

theorem ReadOnly.bind {p : Proc σ ρ} {f : ρ → Proc σ π} (hp : p.ReadOnly)
    (hf : ∀ r, (f r).ReadOnly) : (p.bind f).ReadOnly := by
  induction p with
  | done r => exact hf r
  | access write next ih => exact ⟨hp.1, fun s => ih s (hp.2 s)⟩

theorem ReadOnly.run_snd {p : Proc σ ρ} (hp : p.ReadOnly) (s : σ) : (p.run s).2 = s := by
  induction p generalizing s with
  | done r => rfl
  | access write next ih => exact (ih s (hp.2 s) (write s)).trans (hp.1 s)

/-! ### Bodies that may fail -/

variable {ε α β : Type}

/-- One access that writes unless it fails. -/
def attempt (f : σ → Except ε (α × σ)) : Proc σ (Except ε α) :=
  access (fun s => match f s with | .ok r => r.2 | .error _ => s)
    fun s => done ((f s).map Prod.fst)

/-- The second body runs when the first one has not failed. -/
def andThen (p : Proc σ (Except ε α)) (f : α → Proc σ (Except ε β)) : Proc σ (Except ε β) :=
  p.bind fun
    | .ok a => f a
    | .error e => done (.error e)

/-- The body does what the function says; a failure may leave the value changed in part. -/
def Computes (p : Proc σ (Except ε α)) (f : σ → Except ε (α × σ)) : Prop :=
  ∀ s, (∀ a s', f s = .ok (a, s') → p.run s = (.ok a, s')) ∧
    ∀ e, f s = .error e → (p.run s).1 = .error e

theorem computes_done (a : α) : Computes (done (.ok a) : Proc σ (Except ε α)) fun s => .ok (a, s) :=
  fun _ => ⟨fun _ _ h => by cases h; rfl, fun _ h => by cases h⟩

theorem computes_fail (e : ε) :
    Computes (done (.error e) : Proc σ (Except ε α)) fun _ => .error e :=
  fun _ => ⟨fun _ _ h => (by cases h), fun _ h => by cases h; rfl⟩

theorem computes_attempt (f : σ → Except ε (α × σ)) : Computes (attempt f) f := by
  intro s
  refine ⟨fun a s' h => ?_, fun e h => ?_⟩
  · simp [attempt, run, h, Except.map]
  · simp [attempt, run, h, Except.map]

theorem computes_read (f : σ → Except ε α) :
    Computes (read f) fun s => (f s).map fun a => (a, s) := by
  intro s
  cases hf : f s with
  | error e => simp [hf, Except.map]
  | ok a => simp [hf, Except.map]

theorem Computes.congr {p : Proc σ (Except ε α)} {f g : σ → Except ε (α × σ)} (h : Computes p f)
    (heq : ∀ s, f s = g s) : Computes p g := fun s => heq s ▸ h s

theorem Computes.andThen {p : Proc σ (Except ε α)} {f : σ → Except ε (α × σ)}
    {q : α → Proc σ (Except ε β)} {g : α → σ → Except ε (β × σ)} (hp : Computes p f)
    (hq : ∀ a, Computes (q a) (g a)) :
    Computes (p.andThen q) fun s => f s >>= fun r => g r.1 r.2 := by
  intro s
  dsimp only
  obtain ⟨hok, herr⟩ := hp s
  cases hf : f s with
  | error e =>
    have hfail := herr e hf
    refine ⟨fun b s' h => (by cases h), fun e' h => ?_⟩
    cases h
    simp only [Proc.andThen, run_bind, hfail, run_done]
  | ok r =>
    have hrun := hok r.1 r.2 hf
    simp only [Proc.andThen, run_bind, hrun]
    exact hq r.1 r.2

/-- A loop over a list, with the locals of the loop as an argument. -/
def forEach (round : α → β → Proc σ (Except ε α)) : α → List β → Proc σ (Except ε α)
  | a, [] => done (.ok a)
  | a, b :: l => (round a b).andThen fun a => forEach round a l

theorem Computes.forEach {round : α → β → Proc σ (Except ε α)}
    {f : α × σ → β → Except ε (α × σ)} (h : ∀ a b, Computes (round a b) fun s => f (a, s) b)
    (a : α) (l : List β) : Computes (forEach round a l) fun s => l.foldlM f (a, s) := by
  induction l generalizing a with
  | nil => exact computes_done a
  | cons b l ih =>
    refine ((h a b).andThen ih).congr fun s => ?_
    rw [List.foldlM_cons]

theorem ReadOnly.andThen {p : Proc σ (Except ε α)} {f : α → Proc σ (Except ε β)} (hp : p.ReadOnly)
    (hf : ∀ a, (f a).ReadOnly) : (p.andThen f).ReadOnly := by
  refine hp.bind fun r => ?_
  cases r with
  | ok a => exact hf a
  | error e => exact trivial

theorem ReadOnly.forEach {round : α → β → Proc σ (Except ε α)}
    (h : ∀ a b, (round a b).ReadOnly) (a : α) (l : List β) : (forEach round a l).ReadOnly := by
  induction l generalizing a with
  | nil => exact trivial
  | cons b l ih => exact (h a b).andThen ih

end Proc

/-! ## The lock -/

inductive Mode
  | shared
  | exclusive
  deriving DecidableEq

/-- Who holds the lock; nobody does when it is shared by no one. -/
inductive Lock (T : Type)
  | shared (readers : Finset T)
  | exclusive (holder : T)

namespace Lock

variable {T : Type} [DecidableEq T]

def acquire (lock : Lock T) (t : T) : Mode → Option (Lock T)
  | .shared =>
    match lock with
    | shared readers => some (shared (insert t readers))
    | exclusive _ => none
  | .exclusive =>
    match lock with
    | shared readers => if readers = ∅ then some (exclusive t) else none
    | exclusive _ => none

def release (lock : Lock T) (t : T) : Lock T :=
  match lock with
  | shared readers => shared (readers.erase t)
  | exclusive _ => shared ∅

/-- A lock is given to a reader beside other readers, and to a writer alone. -/
theorem acquire_eq_some {lock lock' : Lock T} {t : T} {mode : Mode}
    (h : lock.acquire t mode = some lock') :
    (∃ readers, mode = .shared ∧ lock = shared readers ∧ lock' = shared (insert t readers)) ∨
      (mode = .exclusive ∧ lock = shared ∅ ∧ lock' = exclusive t) := by
  cases mode with
  | shared =>
    cases lock with
    | shared readers =>
      cases h
      exact Or.inl ⟨readers, rfl, rfl, rfl⟩
    | exclusive holder => cases h
  | exclusive =>
    cases lock with
    | shared readers =>
      simp only [acquire, Option.ite_none_right_eq_some] at h
      obtain ⟨rfl, h⟩ := h
      cases h
      exact Or.inr ⟨rfl, rfl, rfl⟩
    | exclusive holder => cases h

end Lock

/-! ## Objects -/

/-- The calls of an object: how each holds the lock, and what it does meanwhile. -/
structure Guarded (σ Op ρ : Type) where
  mode : Op → Mode
  body : Op → Proc σ ρ
  readOnly : ∀ op, mode op = .shared → (body op).ReadOnly

/-- The object with its lock and the history of the calls that have given it back. -/
structure Monitor (T σ Op ρ : Type) where
  value : σ
  lock : Lock T
  log : List (Entry T Op ρ)

/-- A thread: the calls it has still to make, and what is left of the first one once it has the
lock. -/
structure Caller (σ Op ρ : Type) where
  todo : List Op
  inside : Option (Proc σ ρ)

namespace Guarded

variable {T σ Op ρ : Type} [DecidableEq T] (g : Guarded σ Op ρ)

def next (t : T) (l : Caller σ Op ρ) (m : Monitor T σ Op ρ) :
    Option (Caller σ Op ρ × Monitor T σ Op ρ) :=
  match l.todo with
  | [] => none
  | op :: todo =>
    match l.inside with
    | none =>
      (m.lock.acquire t (g.mode op)).map fun lock =>
        (⟨op :: todo, some (g.body op)⟩, { m with lock := lock })
    | some (.access write rest) =>
      some (⟨op :: todo, some (rest m.value)⟩, { m with value := write m.value })
    | some (.done r) =>
      some (⟨todo, none⟩,
        { m with lock := m.lock.release t, log := m.log ++ [⟨t, op, r⟩] })

/-- The threads before the first turn. -/
def start (s : σ) (program : T → List Op) : Threads T (Caller σ Op ρ) (Monitor T σ Op ρ) :=
  ⟨⟨s, .shared ∅, []⟩, fun t => ⟨program t, none⟩⟩

/-- A call in one piece. -/
def Whole (s : σ) (op : Op) (r : ρ) (s' : σ) : Prop := (g.body op).run s = (r, s')

/-- The thread is in its first call, of the mode, and what is left of it does from the value what
the whole call does from `s`. -/
def Within (l : Caller σ Op ρ) (mode : Mode) (p : Proc σ ρ) (value s : σ) : Prop :=
  ∃ op todo, l.todo = op :: todo ∧ g.mode op = mode ∧ p.run value = (g.body op).run s

/-- The history explains the value `s`. Readers are in the middle of calls on this value; a writer
has changed it in part. -/
structure Linear (s₀ : σ) (program : T → List Op)
    (c : Threads T (Caller σ Op ρ) (Monitor T σ Op ρ)) (s : σ) : Prop where
  explains : Explains g.Whole s₀ c.shared.log s
  programs : ∀ t, callsOfThread t c.shared.log ++ (c.thread t).todo = program t
  value : ∀ readers, c.shared.lock = .shared readers → c.shared.value = s
  reading : ∀ readers, c.shared.lock = .shared readers → ∀ t p, (c.thread t).inside = some p →
    t ∈ readers ∧ p.ReadOnly ∧ g.Within (c.thread t) .shared p s s
  writing : ∀ holder, c.shared.lock = .exclusive holder → ∀ t p, (c.thread t).inside = some p →
    t = holder ∧ g.Within (c.thread t) .exclusive p c.shared.value s

theorem linear_start (s : σ) (program : T → List Op) :
    g.Linear s program (start s program) s where
  explains := .nil
  programs := fun _ => rfl
  value := fun _ _ => rfl
  reading := fun _ _ _ _ h => (by cases h)
  writing := fun _ h => (by cases h)

namespace Linear

variable {g} {s₀ s : σ} {program : T → List Op}
  {c : Threads T (Caller σ Op ρ) (Monitor T σ Op ρ)} {t : T} {op : Op} {todo : List Op}

/-- A thread gets the lock. -/
theorem enter (h : g.Linear s₀ program c s) (htodo : (c.thread t).todo = op :: todo)
    {lock : Lock T} (hlock : c.shared.lock.acquire t (g.mode op) = some lock) :
    g.Linear s₀ program ⟨{ c.shared with lock := lock },
      Function.update c.thread t ⟨op :: todo, some (g.body op)⟩⟩ s := by
  rcases Lock.acquire_eq_some hlock with ⟨readers, hmode, hold, rfl⟩ | ⟨hmode, hold, rfl⟩
  · refine ⟨h.explains, programs_stay h.programs htodo, fun _ _ => h.value readers hold,
      fun readers' hreaders u p hp => ?_, fun _ hwriter => (by cases hwriter)⟩
    cases hreaders
    by_cases hu : u = t
    · subst hu
      simp only [Function.update_self] at hp ⊢
      cases hp
      exact ⟨Finset.mem_insert_self u readers, g.readOnly op hmode, op, todo, rfl, hmode, rfl⟩
    · simp only [Function.update_of_ne hu] at hp ⊢
      obtain ⟨hmem, hrest⟩ := h.reading readers hold u p hp
      exact ⟨Finset.mem_insert_of_mem hmem, hrest⟩
  · refine ⟨h.explains, programs_stay h.programs htodo, fun _ hreaders => (by cases hreaders),
      fun _ hreaders => (by cases hreaders), fun holder hwriter u p hp => ?_⟩
    cases hwriter
    by_cases hu : u = t
    · subst hu
      simp only [Function.update_self] at hp ⊢
      cases hp
      refine ⟨trivial, op, todo, rfl, hmode, ?_⟩
      rw [h.value ∅ hold]
    · -- the lock was free, so no other thread is inside
      simp only [Function.update_of_ne hu] at hp
      exact absurd (h.reading ∅ hold u p hp).1 (Finset.notMem_empty u)

/-- A thread makes an access. -/
theorem access (h : g.Linear s₀ program c s) {write : σ → σ} {rest : σ → Proc σ ρ}
    (htodo : (c.thread t).todo = op :: todo)
    (hinside : (c.thread t).inside = some (.access write rest)) :
    g.Linear s₀ program ⟨{ c.shared with value := write c.shared.value },
      Function.update c.thread t ⟨op :: todo, some (rest c.shared.value)⟩⟩ s := by
  cases hlock : c.shared.lock with
  | shared readers =>
    obtain ⟨hmem, ⟨hkeep, hreads⟩, op', todo', htodo', hmode, hrun⟩ :=
      h.reading readers hlock t _ hinside
    cases htodo'.symm.trans htodo
    have hvalue := h.value readers hlock
    refine ⟨h.explains, programs_stay h.programs htodo, fun _ _ => (hkeep _).trans hvalue,
      fun readers' hreaders u p hp => ?_, fun holder hwriter => ?_⟩
    · cases hlock.symm.trans hreaders
      by_cases hu : u = t
      · subst hu
        simp only [Function.update_self] at hp ⊢
        cases hp
        refine ⟨hmem, hreads _, op, todo, rfl, hmode, ?_⟩
        rw [hvalue, ← hrun, Proc.run, hkeep]
      · simp only [Function.update_of_ne hu] at hp ⊢
        exact h.reading readers hlock u p hp
    · cases hlock.symm.trans hwriter
  | exclusive holder =>
    obtain ⟨rfl, op', todo', htodo', hmode, hrun⟩ := h.writing holder hlock t _ hinside
    cases htodo'.symm.trans htodo
    refine ⟨h.explains, programs_stay h.programs htodo, fun readers hreaders => ?_,
      fun readers hreaders => ?_, fun holder' hwriter u p hp => ?_⟩
    · cases hlock.symm.trans hreaders
    · cases hlock.symm.trans hreaders
    · cases hlock.symm.trans hwriter
      by_cases hu : u = t
      · subst hu
        simp only [Function.update_self] at hp ⊢
        cases hp
        exact ⟨trivial, op, todo, rfl, hmode, hrun⟩
      · simp only [Function.update_of_ne hu] at hp
        exact absurd (h.writing t hlock u p hp).1 hu

/-- A thread gives the lock back. -/
theorem leave (h : g.Linear s₀ program c s) {r : ρ} (htodo : (c.thread t).todo = op :: todo)
    (hinside : (c.thread t).inside = some (.done r)) :
    ∃ s', g.Linear s₀ program ⟨{ c.shared with
        lock := c.shared.lock.release t, log := c.shared.log ++ [⟨t, op, r⟩] },
      Function.update c.thread t ⟨todo, none⟩⟩ s' := by
  have hprograms := programs_return (l := ⟨todo, none⟩) h.programs htodo r
  cases hlock : c.shared.lock with
  | shared readers =>
    obtain ⟨-, -, op', todo', htodo', -, hrun⟩ := h.reading readers hlock t _ hinside
    cases htodo'.symm.trans htodo
    refine ⟨s, h.explains.concat t hrun.symm, hprograms, fun _ _ => h.value readers hlock,
      fun readers' hreaders u p hp => ?_, fun _ hwriter => (by cases hwriter)⟩
    cases hreaders
    by_cases hu : u = t
    · subst hu
      simp only [Function.update_self] at hp
      cases hp
    · simp only [Function.update_of_ne hu] at hp ⊢
      obtain ⟨hmem, hrest⟩ := h.reading readers hlock u p hp
      exact ⟨Finset.mem_erase.mpr ⟨hu, hmem⟩, hrest⟩
  | exclusive holder =>
    obtain ⟨rfl, op', todo', htodo', -, hrun⟩ := h.writing holder hlock t _ hinside
    cases htodo'.symm.trans htodo
    refine ⟨c.shared.value, h.explains.concat t hrun.symm, hprograms, fun _ _ => rfl,
      fun _ _ u p hp => ?_, fun _ hwriter => (by cases hwriter)⟩
    -- the writer was alone
    by_cases hu : u = t
    · subst hu
      simp only [Function.update_self] at hp
      cases hp
    · simp only [Function.update_of_ne hu] at hp
      exact absurd (h.writing t hlock u p hp).1 hu

end Linear

/-- After every schedule the history explains the object: what the calls returned and, when no
writer is inside, its value. -/
theorem linear_run (s : σ) (program : T → List Op) (schedule : List T) :
    ∃ s', g.Linear s program ((start s program).run g.next schedule) s' := by
  refine Threads.run_keeps (P := fun c => ∃ s', g.Linear s program c s') ?_
    ⟨s, g.linear_start s program⟩ schedule
  intro c t l m ⟨s', h⟩ hnext
  unfold next at hnext
  cases htodo : (c.thread t).todo with
  | nil =>
    rw [htodo] at hnext
    cases hnext
  | cons op todo =>
    rw [htodo] at hnext
    cases hinside : (c.thread t).inside with
    | none =>
      rw [hinside] at hnext
      obtain ⟨lock, hlock, heq⟩ := Option.map_eq_some_iff.mp hnext
      cases heq
      exact ⟨s', h.enter htodo hlock⟩
    | some p =>
      rw [hinside] at hnext
      cases p with
      | access write rest =>
        cases hnext
        exact ⟨s', h.access htodo hinside⟩
      | done r =>
        cases hnext
        exact h.leave htodo hinside

/-- A history only gets longer. So a call that returned before another one began comes before it in
every later history. -/
theorem log_grows (c : Threads T (Caller σ Op ρ) (Monitor T σ Op ρ)) (schedule : List T) :
    c.shared.log <+: (c.run g.next schedule).shared.log := by
  refine Threads.run_keeps (P := fun c' : Threads T (Caller σ Op ρ) (Monitor T σ Op ρ) =>
    c.shared.log <+: c'.shared.log) ?_ (List.prefix_refl _) schedule
  intro c' t l m h hnext
  refine h.trans ?_
  unfold next at hnext
  dsimp only
  split at hnext
  · cases hnext
  · split at hnext
    · obtain ⟨lock, -, heq⟩ := Option.map_eq_some_iff.mp hnext
      cases heq
      exact List.prefix_refl _
    · cases hnext
      exact List.prefix_refl _
    · cases hnext
      exact List.prefix_append _ _

end Guarded

end Vecodex.Lib
