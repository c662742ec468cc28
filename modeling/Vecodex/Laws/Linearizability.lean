import Vecodex.Index.Shared

/-!
# Threads on one index

The calls of an index take effect one after the other, whatever threads make them and however their
accesses are interleaved: in the order in which they give `segments_m_` back, they return what the
model of an index without threads returns (`index_linearizable`).

The bodies of the calls are related to that model one by one (`Proc.Computes`); the lock does the
rest.
-/

namespace Vecodex

open Lib

variable {B ID Vec Dist : Type}

namespace Index

theorem computes_write (f : Index B ID → Index B ID) :
    (write f).Computes fun idx => .ok ((), f idx) :=
  Proc.computes_attempt _

/-! ## `add` -/

theorem computes_seal (rt : Runtime B ID Vec Dist) :
    (sealBody rt).Computes fun idx : Index B ID => (idx.sealLast rt).map (idx.last, ·) := by
  refine ((Proc.computes_read _).andThen fun p => (Proc.computes_attempt _).andThen fun _ =>
    (computes_write _).andThen fun _ => Proc.computes_done p).congr fun idx => ?_
  cases hadd : idx.storageAdd idx.last with
  | error e => simp [sealLast, hadd]
  | ok next => simp [sealLast, hadd, pure, Except.pure]

variable [DecidableEq ID]

theorem computes_addLoop (rt : Runtime B ID Vec Dist) (fuel : Nat) (inserted : List Nat)
    (rows : List (ID × Vec)) :
    (addLoopBody rt fuel inserted rows).Computes fun idx : Index B ID =>
      (addLoop rt fuel idx inserted rows).map Prod.swap := by
  induction fuel generalizing inserted rows with
  | zero =>
    cases rows with
    | nil => exact Proc.computes_done inserted
    | cons row rows => exact Proc.computes_fail _
  | succ fuel ih =>
    cases rows with
    | nil => exact Proc.computes_done inserted
    | cons row rows =>
      have hrest : ∀ (batch : Nat) (full : Bool), Proc.Computes
          (if full then (sealBody rt).andThen fun p =>
              addLoopBody rt fuel (inserted ++ [p]) ((row :: rows).drop batch)
            else addLoopBody rt fuel inserted ((row :: rows).drop batch))
          fun idx : Index B ID =>
            if full then (idx.sealLast rt).map (idx.last, ·) >>= fun r =>
              (addLoop rt fuel r.2 (inserted ++ [r.1]) ((row :: rows).drop batch)).map Prod.swap
            else (addLoop rt fuel idx inserted ((row :: rows).drop batch)).map Prod.swap := by
        intro batch full
        cases full with
        | true => exact (computes_seal rt).andThen fun p => ih _ _
        | false => exact ih _ _
      refine ((Proc.computes_read _).andThen fun batch => (computes_write _).andThen fun _ =>
        (Proc.computes_read _).andThen fun full => hrest batch full).congr fun idx => ?_
      rw [addLoop]
      dsimp only
      split
      · simp only [map_error, error_bind]
      · simp only [map_ok, ok_bind, decide_eq_true_eq]
        split
        · cases (idx.appendLast rt ((row :: rows).take
            (idx.batchSize (row :: rows).length))).sealLast rt with
          | error e => simp only [map_error, error_bind]
          | ok next => simp only [map_ok, ok_bind]
        · rfl

/-! ## `merge` -/

theorem computes_joinPairs (rt : Runtime B ID Vec Dist) (i : Nat) (l : MergeLocals) :
    (joinPairsBody rt i l).Computes fun idx : Index B ID =>
      (joinPairs rt i (l.state idx)).map splitState := by
  have hround : ∀ (l : MergeLocals) (j : Nat), (mergePairBody rt i l j).Computes
      fun idx : Index B ID => (mergePair rt i (l.state idx) j).map splitState :=
    fun l j => Proc.computes_attempt _
  refine ((Proc.computes_read _).andThen fun n => Proc.Computes.forEach
    (f := fun r j => (mergePair rt i (r.1.state r.2) j).map splitState) hround l
      (List.range n)).congr fun idx => ?_
  simp only [map_ok, ok_bind]
  exact foldlM_map (g := splitState) (fun s j => rfl) _ (l.state idx)

theorem computes_mergeLoop (rt : Runtime B ID Vec Dist) (fuel i : Nat) (l : MergeLocals) :
    (mergeLoopBody rt fuel i l).Computes fun idx : Index B ID =>
      (mergeLoop rt fuel i (l.state idx)).map splitState := by
  induction fuel generalizing i l with
  | zero =>
    have hrest : ∀ more : Bool, Proc.Computes (σ := Index B ID)
        (.done (if more then .error .outOfFuel else .ok l))
        fun idx => if more then .error Fault.outOfFuel else .ok (l, idx) := by
      intro more
      cases more with
      | true => exact Proc.computes_fail _
      | false => exact Proc.computes_done l
    refine ((Proc.computes_read _).andThen hrest).congr fun idx => ?_
    rw [mergeLoop]
    simp only [map_ok, ok_bind, decide_eq_true_eq]
    split
    · next hmore => rw [if_pos (by exact hmore)]; rfl
    · next hmore => rw [if_neg (by exact hmore)]; rfl
  | succ fuel ih =>
    have hrest : ∀ more : Bool, Proc.Computes
        (if more then (joinPairsBody rt i l).andThen fun l =>
          (write fun idx => idx.finishPass l.erased l.inserted).andThen fun _ =>
            mergeLoopBody rt fuel (i + 1) ⟨l.amount, [], []⟩
        else .done (.ok l))
        fun idx : Index B ID =>
          if more then (joinPairs rt i (l.state idx)).map splitState >>= fun r =>
            (mergeLoop rt fuel (i + 1) (MergeLocals.state ⟨r.1.amount, [], []⟩
              (r.2.finishPass r.1.erased r.1.inserted))).map splitState
          else .ok (l, idx) := by
      intro more
      cases more with
      | true =>
        exact (computes_joinPairs rt i l).andThen fun l =>
          (computes_write _).andThen fun _ => ih (i + 1) _
      | false => exact Proc.computes_done l
    refine ((Proc.computes_read _).andThen hrest).congr fun idx => ?_
    rw [mergeLoop]
    simp only [map_ok, ok_bind, decide_eq_true_eq]
    split
    · next hmore =>
      rw [if_pos (by exact hmore)]
      cases joinPairs rt i (l.state idx) with
      | error e => rfl
      | ok s => rfl
    · next hmore =>
      rw [if_neg (by exact hmore)]
      rfl

theorem computes_merge (rt : Runtime B ID Vec Dist) (amount : Nat) :
    (mergeBody rt amount).Computes fun idx : Index B ID => (idx.merge rt amount).map ((), ·) := by
  refine ((Proc.computes_read _).andThen fun fuel => (computes_mergeLoop rt fuel 0 _).andThen
    fun _ => computes_write _).congr fun idx => ?_
  simp only [map_ok, ok_bind, merge, MergeLocals.state]
  cases mergeLoop rt (idx.levels.weight 0) 0 ⟨idx, amount, [], []⟩ with
  | error e => rfl
  | ok s => rfl

theorem computes_add (rt : Runtime B ID Vec Dist) (rows : List (ID × Vec)) :
    (addBody rt rows).Computes fun idx : Index B ID => (idx.add rt rows).map ((), ·) := by
  have hrest : ∀ merges : Bool, Proc.Computes
      (if merges then mergeBody rt 200 else .done (.ok ()))
      fun idx : Index B ID => if merges then (idx.merge rt 200).map ((), ·) else .ok ((), idx) := by
    intro merges
    cases merges with
    | true => exact computes_merge rt 200
    | false => exact Proc.computes_done ()
  refine ((computes_addLoop rt rows.length [] rows).andThen fun inserted =>
    (computes_write _).andThen fun _ => (Proc.computes_read _).andThen hrest).congr fun idx => ?_
  unfold add fill
  cases addLoop rt rows.length idx [] rows with
  | error e => rfl
  | ok r =>
    simp only [map_ok, ok_bind, Prod.fst_swap, Prod.snd_swap, pure, Except.pure,
      apply_ite (Except.map _)]

/-! ## The other calls -/

theorem computes_erase (ids : List ID) :
    (eraseBody ids).Computes fun idx : Index B ID => .ok ((), idx.erase ids) := by
  refine ((Proc.computes_read _).andThen fun segments => (Proc.Computes.forEach
    (f := fun r p => .ok ((), deleteFrom ids p r.2)) (fun _ p => computes_write _) ()
      segments).andThen fun _ => computes_write _).congr fun idx => ?_
  have hloop : ∀ (l : List Nat) (idx : Index B ID),
      l.foldlM (fun r p => (.ok ((), deleteFrom ids p r.2) : Except Fault (Unit × Index B ID)))
        ((), idx) = .ok ((), { idx with
          heap := l.foldl (fun heap p => heap.modify p fun s => s.deleteBatch ids) idx.heap }) := by
    intro l
    induction l with
    | nil => exact fun _ => rfl
    | cons p l ih =>
      intro idx
      rw [List.foldlM_cons, ok_bind, ih]
      rfl
  simp only [map_ok, ok_bind, hloop]
  rfl

omit [DecidableEq ID] in
theorem computes_pushSegment (segment : Segment B ID) :
    (pushSegmentBody segment).Computes fun idx : Index B ID =>
      (idx.pushSegment segment).map ((), ·) := by
  refine ((Proc.computes_attempt _).andThen fun p => (computes_write _).andThen
    fun _ => computes_write _).congr fun idx => ?_
  unfold pushSegment
  dsimp only
  cases ({ idx with heap := idx.heap.alloc segment } : Index B ID).storageAdd idx.heap.next with
  | error e => rfl
  | ok next => rfl

section Search

variable [LinearOrder Dist] [LinearOrder ID]

theorem computes_search (rt : Runtime B ID Vec Dist) (q : Vec) (k : Nat) :
    (searchBody rt q k).Computes fun idx : Index B ID => (idx.search rt q k).map (·, idx) := by
  refine ((Proc.computes_read _).andThen fun segments => (Proc.Computes.forEach
    (f := fun r p => (r.2.collect rt q k r.1 p).map (·, r.2))
      (fun stat p => Proc.computes_read _) [] segments).andThen fun stat =>
        (Proc.computes_read _).andThen fun stat => Proc.computes_done _).congr fun idx => ?_
  have hloop : ∀ stat, idx.segments.foldlM
      (fun r p => (r.2.collect rt q k r.1 p).map (·, r.2)) (stat, idx) =
        (idx.segments.foldlM (idx.collect rt q k) stat).map (·, idx) :=
    fun stat => foldlM_map (g := (·, idx)) (fun s p => rfl) idx.segments stat
  unfold search
  simp only [map_ok, ok_bind, hloop]
  cases idx.segments.foldlM (idx.collect rt q k) [] with
  | error e => rfl
  | ok stat =>
    simp only [map_ok, ok_bind]
    cases idx.collect rt q k stat idx.last with
    | error e => rfl
    | ok stat => rfl

theorem readOnly_search (rt : Runtime B ID Vec Dist) (q : Vec) (k : Nat) :
    (searchBody rt q k : Proc (Index B ID) _).ReadOnly := by
  refine (Proc.readOnly_read _).andThen fun segments => ?_
  refine (Proc.ReadOnly.forEach (fun _ _ => Proc.readOnly_read _) [] segments).andThen ?_
  exact fun stat => (Proc.readOnly_read _).andThen fun _ => trivial

end Search

end Index

/-! ## Calls of threads -/

namespace IndexCall

variable [LinearOrder Dist] [LinearOrder ID]

/-- What a call that changes the index returns. -/
def answer (idx : Index B ID) : Op B ID Vec → IndexAnswer ID
  | .eraseSegment id => .found (idx.eraseSegment id).1
  | _ => .none

/-- The index that a call leaves, also one that fails on the way: the members as far as the accesses
before the exception have changed them. -/
def left (rt : Runtime B ID Vec Dist) (idx : Index B ID) (op : Op B ID Vec) : Index B ID :=
  ((body rt (.edit op)).run idx).2

/-- A call without other threads: what it returns, and the index it leaves. -/
def Sequential (rt : Runtime B ID Vec Dist) (idx : Index B ID) :
    IndexCall B ID Vec → Except Fault (IndexAnswer ID) → Index B ID → Prop
  | .edit op, .ok result, idx' => result = answer idx op ∧ idx.exec rt op = .ok idx'
  | .edit op, .error e, idx' => idx.exec rt op = .error e ∧ idx' = left rt idx op
  | .search query k, result, idx' =>
    result = (idx.search rt query k).map IndexAnswer.ids ∧ idx' = idx

/-- The index behind its lock. -/
def guarded (rt : Runtime B ID Vec Dist) :
    Guarded (Index B ID) (IndexCall B ID Vec) (Except Fault (IndexAnswer ID)) where
  mode := mode
  body := body rt
  readOnly := fun call hmode => by
    cases call with
    | edit op => cases hmode
    | search query k => exact (Index.readOnly_search rt query k).andThen fun _ => trivial

/-- A body that computes an edit, in one piece. -/
theorem sequential_of_computes {rt : Runtime B ID Vec Dist} {idx idx' : Index B ID}
    {op : Op B ID Vec} {result : Except Fault (IndexAnswer ID)} {α : Type}
    {p : Proc (Index B ID) (Except Fault α)} {f : Index B ID → Except Fault (α × Index B ID)}
    {g : α → IndexAnswer ID} (hp : p.Computes f) (hexec : idx.exec rt op = (f idx).map Prod.snd)
    (hanswer : ∀ r, f idx = .ok r → g r.1 = answer idx op)
    (hbody : body rt (.edit op) = p.andThen fun a => .done (.ok (g a)))
    (hrun : (body rt (.edit op)).run idx = (result, idx')) :
    Sequential rt idx (.edit op) result idx' := by
  have hleft : idx' = left rt idx op := by rw [left, hrun]
  obtain ⟨hok, herr⟩ := hp.andThen (fun a => Proc.computes_done (g a)) idx
  dsimp only at hok herr
  rw [hbody] at hrun
  rw [hrun] at hok herr
  cases hf : f idx with
  | error e =>
    rw [hf] at hexec herr
    obtain rfl : result = .error e := herr e rfl
    exact ⟨hexec, hleft⟩
  | ok r =>
    rw [hf] at hexec hok
    cases hok (g r.1) r.2 rfl
    exact ⟨hanswer r hf, hexec⟩

theorem sequential_of_whole {rt : Runtime B ID Vec Dist} {idx idx' : Index B ID}
    {call : IndexCall B ID Vec} {result : Except Fault (IndexAnswer ID)}
    (h : (guarded rt).Whole idx call result idx') : Sequential rt idx call result idx' := by
  cases call with
  | search query k =>
    have hrun : ((Index.searchBody rt query k).andThen fun ids => .done (.ok (.ids ids))).run idx =
      (result, idx') := h
    obtain ⟨hok, herr⟩ := (Index.computes_search rt query k).andThen
      (fun ids => Proc.computes_done (IndexAnswer.ids ids)) idx
    have hkeep : (((guarded rt).body (.search query k)).run idx).2 = idx :=
      ((guarded rt).readOnly (.search query k) rfl).run_snd idx
    rw [hrun] at hok herr
    dsimp only at hok herr
    refine ⟨?_, (congrArg Prod.snd hrun).symm.trans hkeep⟩
    cases hsearch : idx.search rt query k with
    | error e => exact herr e (by rw [hsearch]; rfl)
    | ok ids => exact congrArg Prod.fst (hok (.ids ids) idx (by rw [hsearch]; rfl))
  | edit op =>
    cases op with
    | add rows =>
      refine sequential_of_computes (g := fun _ => .none) (Index.computes_add rt rows) ?_
        (fun _ _ => rfl) rfl h
      show idx.add rt rows = _
      cases idx.add rt rows with
      | error e => rfl
      | ok next => rfl
    | erase ids =>
      exact sequential_of_computes (g := fun _ => .none) (Index.computes_erase ids) rfl
        (fun _ _ => rfl) rfl h
    | push segment wf =>
      refine sequential_of_computes (g := fun _ => .none) (Index.computes_pushSegment segment) ?_
        (fun _ _ => rfl) rfl h
      show idx.pushSegment segment = _
      cases idx.pushSegment segment with
      | error e => rfl
      | ok next => rfl
    | eraseSegment id =>
      refine sequential_of_computes (g := .found) (Proc.computes_read _) ?_ (fun r hr => ?_) rfl h
      · simp only [Index.exec, map_ok, Index.eraseSegment]
        split <;> rfl
      · cases hr
        rfl

variable {T : Type} [DecidableEq T]

/-- The threads on an index after the turns of a schedule. -/
def scheduled (rt : Runtime B ID Vec Dist) (idx : Index B ID)
    (program : T → List (IndexCall B ID Vec)) (schedule : List T) :
    Threads T (Caller (Index B ID) (IndexCall B ID Vec) (Except Fault (IndexAnswer ID)))
      (Monitor T (Index B ID) (IndexCall B ID Vec) (Except Fault (IndexAnswer ID))) :=
  (Guarded.start idx program).run (guarded rt).next schedule

/-- Whatever calls the threads make and however they are scheduled, the calls that have returned
could have been made one after the other, in the order in which they returned: each returns or
throws what it does in the model without threads, and the index is the one they lead to, unless a
call that changes it is under way. Later turns only add to this order. -/
theorem index_linearizable (rt : Runtime B ID Vec Dist) (idx : Index B ID)
    (program : T → List (IndexCall B ID Vec)) (schedule later : List T) :
    ∃ idx', Explains (Sequential rt) idx (scheduled rt idx program schedule).shared.log idx' ∧
      (∀ readers, (scheduled rt idx program schedule).shared.lock = .shared readers →
        (scheduled rt idx program schedule).shared.value = idx') ∧
      (∀ t, callsOfThread t (scheduled rt idx program schedule).shared.log ++
        ((scheduled rt idx program schedule).thread t).todo = program t) ∧
      (scheduled rt idx program schedule).shared.log <+:
        (scheduled rt idx program (schedule ++ later)).shared.log := by
  obtain ⟨idx', h⟩ := (guarded rt).linear_run idx program schedule
  refine ⟨idx', h.explains.mono fun _ _ _ _ => sequential_of_whole, h.value, h.programs, ?_⟩
  have happend : scheduled rt idx program (schedule ++ later) =
      (scheduled rt idx program schedule).run (guarded rt).next later :=
    Threads.run_append _ schedule later
  rw [happend]
  exact (guarded rt).log_grows _ later

end IndexCall

end Vecodex
