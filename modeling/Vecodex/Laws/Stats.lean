import Mathlib.Algebra.BigOperators.Group.List.Basic
import Mathlib.Algebra.Order.Field.Rat
import Mathlib.Tactic.FieldSimp
import Mathlib.Tactic.Linarith
import Vecodex.App.Coordinator

/-!
# The statistics of a shard

A `StatsManager` counts the responses and the errors of a shard and keeps an average of the
response times. The counters are what they should be after every sequence of responses
(`StatsManager.record_counts`). The average is not: `AggregateStats` increments `responses_cnt_`
first and then gives the old average the weight of the new counter, failures included. A first
response of two seconds counts as one second.

After zero or more responses without duration the next one is divided by more than their number, so
the average is the mean throughout a run only when nothing ever took any time
(`averages_exact_iff`).
-/

namespace Vecodex

namespace StatsManager

/-- A manager after a sequence of responses, each a failure or a success with its duration. -/
def record (responses : List (Option ℚ)) : StatsManager ℚ := responses.foldl aggregateStats .new

/-- The durations of the successes. -/
def durations (responses : List (Option ℚ)) : List ℚ := responses.filterMap id

/-- The arithmetic mean, 0 when there is nothing. -/
def mean (times : List ℚ) : ℚ := if times = [] then 0 else times.sum / times.length

/-- A manager holds the statistics of the responses. -/
structure Exact (responses : List (Option ℚ)) (m : StatsManager ℚ) : Prop where
  average : m.averageResponseTime = mean (durations responses)
  responsesCnt : m.responsesCnt = responses.length
  errorsCnt : m.errorsCnt = responses.countP Option.isNone

theorem record_concat (responses : List (Option ℚ)) (response : Option ℚ) :
    record (responses ++ [response]) = (record responses).aggregateStats response := by
  simp only [record, List.foldl_append, List.foldl_cons, List.foldl_nil]

theorem durations_concat_none (responses : List (Option ℚ)) :
    durations (responses ++ [none]) = durations responses := by
  simp [durations]

theorem durations_concat_some (responses : List (Option ℚ)) (t : ℚ) :
    durations (responses ++ [some t]) = durations responses ++ [t] := by
  simp [durations]

/-- The counters count. -/
theorem record_counts (responses : List (Option ℚ)) :
    (record responses).responsesCnt = responses.length ∧
      (record responses).errorsCnt = responses.countP Option.isNone := by
  induction responses using List.reverseRecOn with
  | nil => exact ⟨rfl, rfl⟩
  | append_singleton responses response ih =>
    rw [record_concat]
    cases response with
    | none => simp [aggregateStats, ih]
    | some t => simp [aggregateStats, ih]

theorem mean_of_zeros {times : List ℚ} (h : ∀ t ∈ times, t = 0) : mean times = 0 := by
  unfold mean
  split
  · rfl
  · rw [List.sum_eq_zero h, zero_div]

/-- A success after successes that took no time. -/
theorem mean_concat_of_zeros {times : List ℚ} (h : ∀ t ∈ times, t = 0) (t : ℚ) :
    mean (times ++ [t]) = t / (times.length + 1) := by
  have hsome : times ++ [t] ≠ [] := List.append_ne_nil_of_right_ne_nil _ (List.cons_ne_nil t [])
  simp only [mean, if_neg hsome, List.sum_append, List.sum_eq_zero h, List.sum_singleton, zero_add,
    List.length_append, List.length_singleton, Nat.cast_add, Nat.cast_one]

theorem record_concat_average (responses : List (Option ℚ)) (t : ℚ) :
    (record (responses ++ [some t])).averageResponseTime =
      ((record responses).averageResponseTime * (responses.length + 1) + t) /
        (responses.length + 2) := by
  simp only [record_concat, aggregateStats, (record_counts responses).1, Nat.cast_add,
    Nat.cast_one]
  rw [add_assoc, one_add_one_eq_two]

/-- Responses without duration leave the average at zero. -/
theorem record_average_of_zeros {responses : List (Option ℚ)}
    (h : ∀ t ∈ durations responses, t = 0) : (record responses).averageResponseTime = 0 := by
  induction responses using List.reverseRecOn with
  | nil => rfl
  | append_singleton responses response ih =>
    cases response with
    | none =>
      rw [durations_concat_none] at h
      rw [record_concat]
      exact ih h
    | some t =>
      rw [durations_concat_some, List.forall_mem_append] at h
      rw [record_concat_average, ih h.1, h.2 t (List.mem_singleton_self t)]
      simp

/-- The mean divides the first duration by the successes, the code by all responses and one more. -/
theorem eq_zero_of_average {responses : List (Option ℚ)} (h : ∀ t ∈ durations responses, t = 0)
    {t : ℚ} (haverage : (record (responses ++ [some t])).averageResponseTime =
      mean (durations (responses ++ [some t]))) : t = 0 := by
  rw [record_concat_average, record_average_of_zeros h, durations_concat_some,
    mean_concat_of_zeros h, zero_mul, zero_add] at haverage
  have hfewer : (durations responses).length ≤ responses.length :=
    List.length_filterMap_le id responses
  have hcast : ((durations responses).length : ℚ) ≤ responses.length := by exact_mod_cast hfewer
  have hpos : (0 : ℚ) ≤ (durations responses).length := Nat.cast_nonneg _
  rw [div_eq_div_iff (by linarith) (by linarith)] at haverage
  have hproduct : t * (responses.length + 1 - (durations responses).length : ℚ) = 0 := by
    linarith
  rcases mul_eq_zero.mp hproduct with hzero | hzero
  · exact hzero
  · linarith

end StatsManager

open StatsManager in
/-- The statistics are right after every part of a sequence of responses, if and only if none of
its successes took any time. -/
theorem averages_exact_iff (responses : List (Option ℚ)) :
    (∀ part, part <+: responses → Exact part (record part)) ↔
      ∀ t ∈ durations responses, t = 0 := by
  constructor
  · intro h
    induction responses using List.reverseRecOn with
    | nil => exact List.forall_mem_nil _
    | append_singleton responses response ih =>
      have hzeros := ih fun part hpart => h part (hpart.trans (List.prefix_append _ _))
      cases response with
      | none => rwa [durations_concat_none]
      | some t =>
        rw [durations_concat_some, List.forall_mem_append]
        refine ⟨hzeros, List.forall_mem_singleton.mpr ?_⟩
        exact eq_zero_of_average hzeros (h _ List.prefix_rfl).average
  · intro h part hpart
    have hzeros : ∀ t ∈ durations part, t = 0 := fun t ht =>
      h t ((hpart.sublist.filterMap id).subset ht)
    obtain ⟨hresponses, herrors⟩ := record_counts part
    refine ⟨?_, hresponses, herrors⟩
    rw [record_average_of_zeros hzeros, mean_of_zeros hzeros]

/-- One response of two seconds makes an average of one. -/
theorem first_response_halved :
    (StatsManager.record [some 2]).averageResponseTime = 1 ∧
      StatsManager.mean (StatsManager.durations [some 2]) = 2 := by
  decide +kernel

end Vecodex
