import Mathlib.Algebra.BigOperators.Group.Finset.Basic
import Mathlib.Data.List.Basic
import Mathlib.Logic.Function.Basic
import Mathlib.Logic.Relation
import Mathlib.Tactic.Abel

/-!
# Threads

Threads that take turns on a shared state. Each thread has a local state, and `next` says what its
next step does, if it can take one. A schedule is the list of the threads in the order in which they
take their turns, so a statement about every schedule is one about every interleaving. A turn of a
thread that waits or has come to its end does nothing.

A history is the list of the calls that have taken effect, in that order, each with what it
returned. `Explains` says that the calls could have been made one after the other.
-/

namespace Vecodex.Lib

variable {T τ σ : Type}

structure Threads (T τ σ : Type) where
  shared : σ
  thread : T → τ

namespace Threads

section

variable [DecidableEq T] (next : T → τ → σ → Option (τ × σ))

/-- A turn of a thread. -/
def step (c : Threads T τ σ) (t : T) : Threads T τ σ :=
  match next t (c.thread t) c.shared with
  | none => c
  | some (l, s) => ⟨s, Function.update c.thread t l⟩

def run (c : Threads T τ σ) (schedule : List T) : Threads T τ σ := schedule.foldl (step next) c

variable {next}

/-- What every step keeps holds after every schedule. -/
theorem run_keeps {P : Threads T τ σ → Prop}
    (hstep : ∀ c t l s, P c → next t (c.thread t) c.shared = some (l, s) →
      P ⟨s, Function.update c.thread t l⟩)
    {c : Threads T τ σ} (h : P c) (schedule : List T) : P (c.run next schedule) := by
  refine List.foldlRecOn schedule _ h fun c hc t _ => ?_
  unfold step
  cases hnext : next t (c.thread t) c.shared with
  | none => exact hc
  | some r => exact hstep c t r.1 r.2 hc hnext

theorem run_append (c : Threads T τ σ) (first second : List T) :
    c.run next (first ++ second) = (c.run next first).run next second :=
  List.foldl_append

theorem step_of_some {c : Threads T τ σ} {t : T} {l : τ} {s : σ}
    (h : next t (c.thread t) c.shared = some (l, s)) :
    c.step next t = ⟨s, Function.update c.thread t l⟩ := by
  rw [step, h]

/-- Steps of one thread are turns it takes while the others wait. -/
theorem exists_turns {t : T} {a b : τ × σ}
    (h : Relation.ReflTransGen (fun a b => next t a.1 a.2 = some b) a b) (thread : T → τ)
    (hthread : thread t = a.1) :
    ∃ n, (⟨a.2, thread⟩ : Threads T τ σ).run next (List.replicate n t) =
      ⟨b.2, Function.update thread t b.1⟩ := by
  induction h using Relation.ReflTransGen.head_induction_on generalizing thread with
  | refl =>
    refine ⟨0, ?_⟩
    rw [← hthread, Function.update_eq_self]
    rfl
  | @head a c hstep _ ih =>
    obtain ⟨n, hn⟩ := ih (Function.update thread t c.1) (Function.update_self ..)
    refine ⟨n + 1, ?_⟩
    rw [← hthread] at hstep
    rw [List.replicate_succ, run, List.foldl_cons, step_of_some (c := ⟨a.2, thread⟩) hstep]
    rwa [Function.update_idem] at hn

/-- What the threads carry together, when one of them comes to carry something else. -/
theorem sum_update [Fintype T] {M : Type} [AddCommMonoid M] (carried : T → τ → M) (thread : T → τ)
    (t : T) (l : τ) :
    (∑ u, carried u (Function.update thread t l u)) + carried t (thread t) =
      (∑ u, carried u (thread u)) + carried t l := by
  have hrest : ∑ u ∈ Finset.univ.erase t, carried u (Function.update thread t l u) =
      ∑ u ∈ Finset.univ.erase t, carried u (thread u) := by
    refine Finset.sum_congr rfl fun u hu => ?_
    rw [Function.update_of_ne (Finset.ne_of_mem_erase hu)]
  rw [← Finset.add_sum_erase _ _ (Finset.mem_univ t), hrest, Function.update_self,
    ← Finset.add_sum_erase Finset.univ (fun u => carried u (thread u)) (Finset.mem_univ t)]
  abel

/-- What goes from the threads to the shared state does not get lost on the way. -/
theorem run_conserves [Fintype T] {M : Type} [AddCancelCommMonoid M] {P : Threads T τ σ → Prop}
    (hkeep : ∀ c t l s, P c → next t (c.thread t) c.shared = some (l, s) →
      P ⟨s, Function.update c.thread t l⟩) (amount : σ → M) (carried : T → τ → M)
    (hstep : ∀ c t l s, P c → next t (c.thread t) c.shared = some (l, s) →
      amount s + carried t l = amount c.shared + carried t (c.thread t))
    {c : Threads T τ σ} (h : P c) (schedule : List T) :
    amount (c.run next schedule).shared + ∑ t, carried t ((c.run next schedule).thread t) =
      amount c.shared + ∑ t, carried t (c.thread t) := by
  refine (run_keeps (P := fun d => P d ∧ amount d.shared + ∑ t, carried t (d.thread t) =
    amount c.shared + ∑ t, carried t (c.thread t)) ?_ ⟨h, rfl⟩ schedule).2
  rintro d t l s ⟨hd, hsum⟩ hnext
  refine ⟨hkeep d t l s hd hnext, ?_⟩
  have hmoved := sum_update carried d.thread t l
  have hown := hstep d t l s hd hnext
  rw [← hsum]
  refine add_right_cancel (b := carried t (d.thread t)) ?_
  calc amount s + ∑ u, carried u (Function.update d.thread t l u) + carried t (d.thread t)
      = amount s + carried t l + ∑ u, carried u (d.thread u) := by
        rw [add_assoc, hmoved]
        abel
    _ = amount d.shared + ∑ u, carried u (d.thread u) + carried t (d.thread t) := by
        rw [hown]
        abel

/-- When every step of a thread brings it nearer to its end, there is a schedule after which none
can take another. -/
theorem exists_rest [Fintype T] {measure : T → τ → Nat}
    (hmeasure : ∀ t l s l' s', next t l s = some (l', s') → measure t l' < measure t l)
    (c : Threads T τ σ) :
    ∃ schedule, ∀ t, next t ((c.run next schedule).thread t) (c.run next schedule).shared =
      none := by
  induction hn : ∑ t, measure t (c.thread t) using Nat.strong_induction_on generalizing c with
  | _ n ih =>
    by_cases hrest : ∀ t, next t (c.thread t) c.shared = none
    · exact ⟨[], hrest⟩
    · obtain ⟨t, ht⟩ := not_forall.mp hrest
      obtain ⟨⟨l, s⟩, hnext⟩ := Option.ne_none_iff_exists'.mp ht
      have hless := hmeasure t _ _ _ _ hnext
      have hsum := sum_update measure c.thread t l
      have hnear : ∑ u, measure u (Function.update c.thread t l u) < n := by omega
      obtain ⟨schedule, hschedule⟩ := ih _ hnear ⟨s, Function.update c.thread t l⟩ rfl
      refine ⟨t :: schedule, ?_⟩
      rwa [run, List.foldl_cons, step_of_some hnext]

end

end Threads

/-! ## Histories -/

/-- A call of a thread and what it returned. -/
structure Entry (T Op ρ : Type) where
  thread : T
  op : Op
  result : ρ

variable {Op ρ : Type}

/-- The calls of a thread in a history. -/
def callsOfThread [DecidableEq T] (t : T) (log : List (Entry T Op ρ)) : List Op :=
  (log.filter fun e => e.thread = t).map Entry.op

section

variable [DecidableEq T]

theorem callsOfThread_concat_self (t : T) (log : List (Entry T Op ρ)) (op : Op) (r : ρ) :
    callsOfThread t (log ++ [⟨t, op, r⟩]) = callsOfThread t log ++ [op] := by
  simp [callsOfThread]

theorem callsOfThread_concat_of_ne {t u : T} (h : u ≠ t) (log : List (Entry T Op ρ)) (op : Op)
    (r : ρ) : callsOfThread t (log ++ [⟨u, op, r⟩]) = callsOfThread t log := by
  simp [callsOfThread, h]

/-- A thread that stays in its call leaves the programs alone. -/
theorem programs_stay {remaining : τ → List Op} {program : T → List Op} {thread : T → τ} {t : T}
    {log : List (Entry T Op ρ)} {l : τ}
    (h : ∀ u, callsOfThread u log ++ remaining (thread u) = program u)
    (hl : remaining (thread t) = remaining l) (u : T) :
    callsOfThread u log ++ remaining (Function.update thread t l u) = program u := by
  by_cases hu : u = t
  · subst hu
    rw [Function.update_self, ← hl]
    exact h u
  · rw [Function.update_of_ne hu]
    exact h u

/-- A call goes from the program of its thread to the history. -/
theorem programs_return {remaining : τ → List Op} {program : T → List Op} {thread : T → τ} {t : T}
    {log : List (Entry T Op ρ)} {l : τ} {op : Op}
    (h : ∀ u, callsOfThread u log ++ remaining (thread u) = program u)
    (hl : remaining (thread t) = op :: remaining l) (r : ρ) (u : T) :
    callsOfThread u (log ++ [⟨t, op, r⟩]) ++ remaining (Function.update thread t l u) =
      program u := by
  by_cases hu : u = t
  · subst hu
    rw [Function.update_self, callsOfThread_concat_self, List.append_assoc,
      List.singleton_append, ← hl]
    exact h u
  · rw [Function.update_of_ne hu, callsOfThread_concat_of_ne (Ne.symm hu)]
    exact h u

end

/-- The calls of the history, made one after the other from the first state, return what it says
and lead to the last state. -/
inductive Explains (spec : σ → Op → ρ → σ → Prop) (s₀ : σ) : List (Entry T Op ρ) → σ → Prop
  | nil : Explains spec s₀ [] s₀
  | concat {log : List (Entry T Op ρ)} {s s' : σ} {op : Op} {r : ρ} (t : T)
    (h : Explains spec s₀ log s) (hcall : spec s op r s') :
    Explains spec s₀ (log ++ [⟨t, op, r⟩]) s'

/-- A specification that allows more explains more. -/
theorem Explains.mono {spec spec' : σ → Op → ρ → σ → Prop} {s₀ s : σ} {log : List (Entry T Op ρ)}
    (h : Explains spec s₀ log s) (hspec : ∀ s op r s', spec s op r s' → spec' s op r s') :
    Explains spec' s₀ log s := by
  induction h with
  | nil => exact .nil
  | concat t _ hcall ih => exact .concat t ih (hspec _ _ _ _ hcall)

end Vecodex.Lib
