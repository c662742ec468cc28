import Vecodex.App.Exposer

/-!
# Metrics that several threads update

`IncrementCounter` gives the lock back between looking for the family, making it and incrementing,
so other threads come in between. `metrics_linearizable` says that nothing is lost by it. Every call
has the effect and the answer it has when the calls are made one after the other on a plain table of
values, every family is registered once, and no call goes through a family that is not there.

A missing family and a metric that was never set both count as the value zero, which is how the
callers read a missing value.
-/

namespace Vecodex

open Lib

variable {T V : Type}

namespace Exposer

variable {e e' : Exposer V} {kind : Metric} {name : String} {labels : Labels} {x : V}

theorem families_setFamily (e : Exposer V) (kind : Metric) (name : String) (family : Family V)
    (kind' : Metric) : (e.setFamily kind name family).families kind' =
      if kind' = kind then (e.families kind').insert name family else e.families kind' := by
  cases kind <;> cases kind' <;> rfl

theorem registered_setFamily (e : Exposer V) (kind : Metric) (name : String) (family : Family V) :
    (e.setFamily kind name family).registered = e.registered := by
  cases kind <;> rfl

theorem mem_setFamily (e : Exposer V) (kind : Metric) (name : String) (family : Family V)
    (kind' : Metric) (name' : String) : name' ∈ (e.setFamily kind name family).families kind' ↔
      (kind' = kind ∧ name' = name) ∨ name' ∈ e.families kind' := by
  rw [families_setFamily]
  by_cases hkind : kind' = kind
  · simp [hkind]
  · simp [hkind]

theorem mem_of_lookup {family : Family V} (h : (e.families kind).lookup name = some family) :
    name ∈ e.families kind := AList.lookup_isSome.mp (Option.isSome_of_eq_some h)

/-- The families that are registered are the ones in the tables, each once. -/
structure Sound (e : Exposer V) : Prop where
  nodup : e.registered.Nodup
  mem : ∀ kind name, (kind, name) ∈ e.registered ↔ name ∈ e.families kind

theorem Sound.setFamily (h : e.Sound) (hname : name ∈ e.families kind) (family : Family V) :
    (e.setFamily kind name family).Sound where
  nodup := by rw [registered_setFamily]; exact h.nodup
  mem := by
    intro kind' name'
    rw [registered_setFamily, mem_setFamily, h.mem]
    refine (or_iff_right_of_imp ?_).symm
    rintro ⟨rfl, rfl⟩
    exact hname

variable [Zero V]

/-- The value of a metric, zero when there is none. -/
def valueOf (e : Exposer V) (kind : Metric) (name : String) (labels : Labels) : V :=
  (((e.families kind).lookup name).map fun family => added family labels).getD 0

theorem valueOf_setFamily (e : Exposer V) (kind : Metric) (name : String) (family : Family V)
    (kind' : Metric) (name' : String) (labels' : Labels) :
    (e.setFamily kind name family).valueOf kind' name' labels' =
      if kind' = kind ∧ name' = name then added family labels'
      else e.valueOf kind' name' labels' := by
  unfold valueOf
  rw [families_setFamily]
  by_cases hkind : kind' = kind
  · by_cases hname : name' = name
    · subst hname
      simp [hkind]
    · simp [hkind, hname, AList.lookup_insert_ne hname]
  · simp [hkind]

theorem added_insert (family : Family V) (labels labels' : Labels) (v : V) :
    added (family.insert labels v) labels' =
      if labels' = labels then v else added family labels' := by
  unfold added
  by_cases hlabels : labels' = labels
  · subst hlabels
    simp
  · simp [hlabels, AList.lookup_insert_ne hlabels]

/-- A family whose metric of the labels gets a value. -/
theorem valueOf_setFamily_insert {family : Family V}
    (hfamily : (e.families kind).lookup name = some family) (v : V) (kind' : Metric)
    (name' : String) (labels' : Labels) :
    (e.setFamily kind name (family.insert labels v)).valueOf kind' name' labels' =
      if kind' = kind ∧ name' = name ∧ labels' = labels then v
      else e.valueOf kind' name' labels' := by
  rw [valueOf_setFamily, added_insert]
  by_cases hkey : kind' = kind ∧ name' = name
  · obtain ⟨rfl, rfl⟩ := hkey
    simp [valueOf, hfamily]
  · rw [if_neg hkey, if_neg fun h => hkey ⟨h.1, h.2.1⟩]

/-! ## The sections -/

/-- What a section leaves: the values as the table `s` has them, and no family less. -/
structure Leaves (e e' : Exposer V) (s : Metric → String → Labels → V) : Prop where
  sound : e'.Sound
  values : ∀ kind name labels, e'.valueOf kind name labels = s kind name labels
  grows : ∀ kind name, name ∈ e.families kind → name ∈ e'.families kind

theorem addFamily_leaves (h : e.Sound) (kind : Metric) (name : String) (labels : Labels) :
    Leaves e (e.addFamily kind name labels) e.valueOf ∧
      name ∈ (e.addFamily kind name labels).families kind := by
  unfold addFamily
  split
  · next hmem => exact ⟨⟨h, fun _ _ _ => rfl, fun _ _ hmem => hmem⟩, hmem⟩
  · next hmem =>
    have hfamilies : ∀ kind', ({ e.setFamily kind name ((∅ : Family V).insert labels 0) with
        registered := e.registered ++ [(kind, name)] } : Exposer V).families kind' =
          (e.setFamily kind name ((∅ : Family V).insert labels 0)).families kind' := by
      intro kind'
      cases kind' <;> rfl
    refine ⟨⟨⟨?_, fun kind' name' => ?_⟩, fun kind' name' labels' => ?_,
      fun kind' name' hold => ?_⟩, ?_⟩
    · refine List.nodup_append.mpr ⟨h.nodup, List.nodup_singleton _, fun a ha b hb => ?_⟩
      rw [List.mem_singleton.mp hb]
      rintro rfl
      exact hmem ((h.mem kind name).mp ha)
    · rw [hfamilies, mem_setFamily, ← h.mem, List.mem_append, List.mem_singleton, Prod.mk.injEq,
        or_comm]
    · -- a new family has only zeros, like a missing one
      have hvalue := valueOf_setFamily e kind name ((∅ : Family V).insert labels 0) kind' name'
        labels'
      rw [valueOf, hfamilies, ← valueOf, hvalue]
      split
      · next hkey =>
        obtain ⟨rfl, rfl⟩ := hkey
        have hzero : e.valueOf kind' name' labels' = 0 := by
          simp [valueOf, AList.lookup_eq_none.mpr hmem]
        rw [hzero, added_insert]
        split
        · rfl
        · rfl
      · rfl
    · rw [hfamilies, mem_setFamily]
      exact Or.inr hold
    · rw [hfamilies, mem_setFamily]
      exact Or.inl ⟨rfl, rfl⟩

theorem getValue_leaves (h : e.Sound) (kind : Metric) (name : String) (labels : Labels) :
    Leaves e (e.getValue kind name labels).2 e.valueOf ∧
      (e.getValue kind name labels).1.getD 0 = e.valueOf kind name labels := by
  unfold getValue
  cases hfamily : (e.families kind).lookup name with
  | none =>
    refine ⟨⟨h, fun _ _ _ => rfl, fun _ _ hmem => hmem⟩, ?_⟩
    simp [valueOf, hfamily]
  | some family =>
    refine ⟨⟨h.setFamily (mem_of_lookup hfamily) _, fun kind' name' labels' => ?_,
      fun kind' name' hmem => (mem_setFamily ..).mpr (Or.inr hmem)⟩, ?_⟩
    · rw [valueOf_setFamily_insert hfamily]
      split
      · next hkey =>
        obtain ⟨rfl, rfl, rfl⟩ := hkey
        simp [valueOf, hfamily]
      · rfl
    · simp [valueOf, hfamily]

variable [Add V]

/-- The table of values with one of them updated. -/
def updated (s : Metric → String → Labels → V) (kind : Metric) (name : String) (value : V)
    (labels : Labels) : Metric → String → Labels → V :=
  fun kind' name' labels' =>
    if kind' = kind ∧ name' = name ∧ labels' = labels then kind.apply value (s kind name labels)
    else s kind' name' labels'

theorem update_leaves (h : e.Sound) (hupdate : e.update kind name x labels = some e') :
    Leaves e e' (updated e.valueOf kind name x labels) := by
  obtain ⟨family, hfamily, rfl⟩ := Option.map_eq_some_iff.mp hupdate
  have hname := mem_of_lookup hfamily
  refine ⟨h.setFamily hname _, fun kind' name' labels' => ?_, fun kind' name' hmem => ?_⟩
  · rw [valueOf_setFamily_insert hfamily, updated]
    simp only [valueOf, hfamily, Option.map_some, Option.getD_some]
  · exact (mem_setFamily ..).mpr (Or.inr hmem)

theorem update_eq_none : e.update kind name x labels = none ↔ name ∉ e.families kind := by
  rw [update, Option.map_eq_none_iff, AList.lookup_eq_none]

end Exposer

/-! ## Threads -/

variable [Zero V] [Add V]

/-- The calls one after the other, on a plain table of values. -/
def MetricCall.Sequential (s : Metric → String → Labels → V) :
    MetricCall V → Option V → (Metric → String → Labels → V) → Prop
  | .put kind name value labels, result, s' =>
    result = none ∧ s' = Exposer.updated s kind name value labels
  | .getValue kind name labels, result, s' => result.getD 0 = s kind name labels ∧ s' = s

namespace Metrics

/-- An update that has made sure of its family will find it. -/
def Ready (l : MetricThread V) (e : Exposer V) : Prop :=
  l.stage = .ready → ∀ kind name value labels todo,
    l.todo = .put kind name value labels :: todo → name ∈ e.families kind

/-- The history explains the values of the exposer. -/
structure Linear (program : T → List (MetricCall V)) [DecidableEq T]
    (c : Threads T (MetricThread V) (Metrics T V)) : Prop where
  explains : ∃ s, Explains MetricCall.Sequential (fun _ _ _ => 0) c.shared.log s ∧
    ∀ kind name labels, c.shared.exposer.valueOf kind name labels = s kind name labels
  programs : ∀ t, callsOfThread t c.shared.log ++ (c.thread t).todo = program t
  sound : c.shared.exposer.Sound
  ready : ∀ t, Ready (c.thread t) c.shared.exposer
  running : c.shared.crashed = false

variable [DecidableEq T] {program : T → List (MetricCall V)}
  {c : Threads T (MetricThread V) (Metrics T V)} {t : T} {call : MetricCall V}
  {todo : List (MetricCall V)} {e : Exposer V}

namespace Linear

theorem start (program : T → List (MetricCall V)) : Linear program (start program) where
  explains := ⟨_, .nil, fun kind name labels => by cases kind <;> rfl⟩
  programs := fun _ => rfl
  sound := ⟨List.nodup_nil, fun kind name => by cases kind <;> simp [Metrics.start, Exposer.empty,
    Exposer.families]⟩
  ready := fun _ h => (by cases h)
  running := rfl

/-- The other threads do not mind new families. -/
theorem ready_update (h : Linear program c) {s : Metric → String → Labels → V}
    (hleaves : Exposer.Leaves c.shared.exposer e s) {l : MetricThread V} (hl : Ready l e) (u : T) :
    Ready (Function.update c.thread t l u) e := by
  by_cases hu : u = t
  · subst hu
    rwa [Function.update_self]
  · rw [Function.update_of_ne hu]
    intro hstage kind name value labels todo htodo
    exact hleaves.grows kind name (h.ready u hstage kind name value labels todo htodo)

/-- A thread goes on to the next stage of its call. -/
theorem stage (h : Linear program c) {l : MetricThread V} (htodo : (c.thread t).todo = l.todo)
    (hleaves : Exposer.Leaves c.shared.exposer e c.shared.exposer.valueOf) (hl : Ready l e) :
    Linear program ⟨{ c.shared with exposer := e }, Function.update c.thread t l⟩ where
  explains := by
    obtain ⟨s, hs, hvalues⟩ := h.explains
    exact ⟨s, hs, fun kind name labels => (hleaves.values kind name labels).trans
      (hvalues kind name labels)⟩
  programs := programs_stay h.programs htodo
  sound := hleaves.sound
  ready := h.ready_update hleaves hl
  running := h.running

/-- A call returns. -/
theorem finish (h : Linear program c) (htodo : (c.thread t).todo = call :: todo) {r : Option V}
    {s' : Metric → String → Labels → V} (hleaves : Exposer.Leaves c.shared.exposer e s')
    (hcall : MetricCall.Sequential c.shared.exposer.valueOf call r s') :
    Linear program ⟨(c.shared.finish t call todo (r, e)).2,
      Function.update c.thread t (c.shared.finish t call todo (r, e)).1⟩ where
  explains := by
    obtain ⟨s, hs, hvalues⟩ := h.explains
    obtain rfl : c.shared.exposer.valueOf = s := by
      funext kind name labels
      exact hvalues kind name labels
    exact ⟨s', hs.concat t hcall, hleaves.values⟩
  programs := programs_return h.programs htodo r
  sound := hleaves.sound
  ready := h.ready_update hleaves fun hstage => (by cases hstage)
  running := h.running

end Linear

theorem linear_step {l : MetricThread V} {m : Metrics T V} (h : Linear program c)
    (hnext : next t (c.thread t) c.shared = some (l, m)) :
    Linear program ⟨m, Function.update c.thread t l⟩ := by
  have hrunning : ¬ c.shared.crashed = true := by simp [h.running]
  rw [next, if_neg hrunning] at hnext
  split at hnext
  · cases hnext
  · next kind name labels todo htodo =>
    obtain ⟨hleaves, hvalue⟩ := Exposer.getValue_leaves h.sound kind name labels
    cases hnext
    exact h.finish htodo hleaves ⟨hvalue, rfl⟩
  · next kind name value labels todo htodo =>
    have hsame : Exposer.Leaves c.shared.exposer c.shared.exposer c.shared.exposer.valueOf :=
      ⟨h.sound, fun _ _ _ => rfl, fun _ _ hmem => hmem⟩
    split at hnext
    · next e hstage hupdate =>
      cases hnext
      exact h.finish htodo (Exposer.update_leaves h.sound hupdate) ⟨rfl, rfl⟩
    · cases hnext
      exact h.stage rfl hsame fun hready => (by cases hready)
    · cases hnext
      obtain ⟨hleaves, hmem⟩ := Exposer.addFamily_leaves h.sound kind name labels
      refine h.stage rfl hleaves fun _ kind' name' value' labels' todo' htodo' => ?_
      cases htodo.symm.trans htodo'
      exact hmem
    · next e hstage hupdate =>
      cases hnext
      exact h.finish htodo (Exposer.update_leaves h.sound hupdate) ⟨rfl, rfl⟩
    · -- the family was there when the thread came to this stage, and families stay
      next hstage hupdate =>
      exact absurd (h.ready t hstage kind name value labels todo htodo)
        (Exposer.update_eq_none.mp hupdate)

/-- Whatever the threads do with the metrics and however their turns fall, the calls that have
returned could have been made one after the other on a plain table of values: no update is lost or
made twice, every value that was read is the one of that moment. Every family is registered once,
and the process does not go through a family that is not there. -/
theorem metrics_linearizable (program : T → List (MetricCall V)) (schedule : List T) :
    ∃ s, Explains MetricCall.Sequential (fun _ _ _ => 0)
        ((start program).run next schedule).shared.log s ∧
      (∀ kind name labels,
        ((start program).run next schedule).shared.exposer.valueOf kind name labels =
          s kind name labels) ∧
      (∀ t, callsOfThread t ((start program).run next schedule).shared.log ++
        (((start program).run next schedule).thread t).todo = program t) ∧
      ((start program).run next schedule).shared.exposer.registered.Nodup ∧
      ((start program).run next schedule).shared.crashed = false := by
  have h := Threads.run_keeps (P := Linear program) (fun _ _ _ _ h hnext => linear_step h hnext)
    (Linear.start program) schedule
  obtain ⟨s, hs, hvalues⟩ := h.explains
  exact ⟨s, hs, hvalues, h.programs, h.sound.nodup, h.running⟩

/-- Both threads find no family, and one makes it before the other looks again. -/
example : ((start fun _ : Bool => [.incrementCounter "requests_count" 1 []]).run next
    [false, true, false, true, true, false] : Threads Bool (MetricThread Nat)
      (Metrics Bool Nat)).shared.exposer.valueOf .counter "requests_count" [] = 2 := by decide

end Metrics

end Vecodex
