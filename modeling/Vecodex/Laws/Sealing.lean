import Vecodex.Laws.Base
import Vecodex.Laws.Total

/-!
# The sealing loop

`add` cuts its rows into batches. A batch goes to the open segment; when the segment reports the
threshold as its size it is sealed and pushed, and a new segment is opened for the next batch.
`Hands` describes such a sequence of hand-overs, and `Index.addLoop_hands` says that the loop is one
that hands over all its rows in order.

The size of the open segment is a difference modulo 2^64. Between two calls the true difference is
below the threshold, and if it is negative the remainder is above (`Index.Roomy.size_ne`), so a
batch is never empty and the equality that seals a segment is never overshot.
-/

namespace Vecodex

open Lib

variable {B ID Vec Dist : Type} [DecidableEq ID]

/-- A batch that is handed over: the open segment that takes it, the rows, and whether the segment
is sealed after it. -/
structure Handover (ID Vec : Type) where
  segment : Nat
  rows : List (ID × Vec)
  full : Bool

/-- The batches of one `add`, from the index before the first to the index after the last. -/
inductive Hands (rt : Runtime B ID Vec Dist) :
    Index B ID → List (Handover ID Vec) → Index B ID → Prop
  | done (idx : Index B ID) : Hands rt idx [] idx
  | stay {idx idx' : Index B ID} {rows : List (ID × Vec)} {rest : List (Handover ID Vec)}
      (batch : rows ≠ [])
      (room : ((idx.appendLast rt rows).seg idx.last).size ≠ idx.config.segmentThreshold)
      (next : Hands rt (idx.appendLast rt rows) rest idx') :
    Hands rt idx (⟨idx.last, rows, false⟩ :: rest) idx'
  | sealLast {idx st idx' : Index B ID} {rows : List (ID × Vec)} {rest : List (Handover ID Vec)}
      (batch : rows ≠ [])
      (full : ((idx.appendLast rt rows).seg idx.last).size = idx.config.segmentThreshold)
      (stored : (idx.appendLast rt rows).storageAdd idx.last = .ok st)
      (next : Hands rt (st.openNext rt) rest idx') :
    Hands rt idx (⟨idx.last, rows, true⟩ :: rest) idx'

/-- The segments that are sealed, in order. -/
def sealedSegments (handovers : List (Handover ID Vec)) : List Nat :=
  (handovers.filter Handover.full).map Handover.segment

/-- The sealed segments are pushed. -/
theorem Hands.segments {rt : Runtime B ID Vec Dist} {idx idx' : Index B ID}
    {handovers : List (Handover ID Vec)} (h : Hands rt idx handovers idx') :
    idx'.segments = idx.segments ++ sealedSegments handovers := by
  induction h with
  | done idx => exact (List.append_nil _).symm
  | stay _ _ _ ih => exact ih
  | sealLast _ _ stored _ ih =>
    obtain ⟨levels, -, rfl⟩ := Index.storageAdd_eq_ok stored
    rw [ih]
    exact List.append_assoc _ _ _

namespace Index

/-- The loop of `add` hands over all its rows, in order. -/
theorem addLoop_hands {rt : Runtime B ID Vec Dist} {fuel : Nat} {idx idx' : Index B ID}
    {inserted inserted' : List Nat} {rows : List (ID × Vec)}
    (h : idx.addLoop rt fuel inserted rows = .ok (idx', inserted')) :
    ∃ handovers, Hands rt idx handovers idx' ∧ handovers.flatMap Handover.rows = rows ∧
      inserted' = inserted ++ sealedSegments handovers := by
  induction fuel generalizing idx inserted rows with
  | zero =>
    cases rows with
    | nil =>
      cases h
      exact ⟨[], .done _, rfl, (List.append_nil _).symm⟩
    | cons row rows => cases h
  | succ fuel ih =>
    cases rows with
    | nil =>
      cases h
      exact ⟨[], .done _, rfl, (List.append_nil _).symm⟩
    | cons row rows =>
      obtain ⟨batch, filled, -, hbatch, rfl, hround⟩ := addLoop_round h
      have hsome : (row :: rows).take batch ≠ [] := by
        rw [Ne, List.take_eq_nil_iff]
        simp [hbatch]
      rcases hround with ⟨hfull, st, hst, hrest⟩ | ⟨hopen, hrest⟩
      · obtain ⟨handovers, hhands, hrows, hinserted⟩ := ih hrest
        refine ⟨_, .sealLast hsome hfull hst hhands, ?_, ?_⟩
        · rw [List.flatMap_cons, hrows, List.take_append_drop]
        · rw [hinserted, List.append_assoc]
          rfl
      · obtain ⟨handovers, hhands, hrows, hinserted⟩ := ih hrest
        refine ⟨_, .stay hsome hopen hhands, ?_, hinserted⟩
        rw [List.flatMap_cons, hrows, List.take_append_drop]

/-- The open segment does not report the threshold between two calls. -/
theorem Roomy.size_ne {idx : Index B ID} {n : Nat} (h : Roomy idx n)
    (hwf : (idx.seg idx.last).index.Wf) (hn : n < 2 ^ 62) :
    (idx.seg idx.last).size ≠ idx.config.segmentThreshold := by
  have hlow := hwf.neg_le_net
  have hroom := h.room
  have hrows := h.rows
  have hint := idx.config.threshold_int
  show sizeT (idx.seg idx.last).index.net ≠ _
  unfold sizeT
  omega

end Index

/-- After every history of `add` and `erase` the open segment does not report the threshold, and the
next `add` returns. It hands over its rows once and in order to the open segment and the segments
opened after it; a segment is sealed and pushed when it reports the threshold. What `add` leaves is
this index after the report of the sealed segments and, when it is enabled, a merge. -/
theorem sealing_loop (rt : Runtime B ID Vec Dist) (config : IndexConfig) (callback : Bool)
    (draws : Nat) (edits : List (Edit ID Vec)) (hn : (addedRows edits).length < 2 ^ 62) :
    ∃ st, (Index.create rt config callback draws : Index B ID).run rt (edits.map Edit.op) = .ok st ∧
      st.config = config ∧ (st.seg st.last).size ≠ config.segmentThreshold ∧
      ∀ rows : List (ID × Vec), (addedRows edits).length + rows.length < 2 ^ 62 →
        ∃ handovers filled reported st', Hands rt st handovers filled ∧
          handovers.flatMap Handover.rows = rows ∧
          filled.segments = st.segments ++ sealedSegments handovers ∧
          st.addLoop rt rows.length [] rows = .ok (filled, sealedSegments handovers) ∧
          reported = (if sealedSegments handovers = [] then filled
            else filled.notify [] (sealedSegments handovers)) ∧
          (if config.enableMerge then reported.merge rt 200 else .ok reported) = .ok st' ∧
          st.add rt rows = .ok st' := by
  obtain ⟨st, hrun, hshape, hroomy⟩ := Index.run_roomy rt config callback draws hn
  have hconfig : st.config = config := Index.run_config hrun
  refine ⟨st, hrun, hconfig, ?_, fun rows hrows => ?_⟩
  · rw [← hconfig]
    exact hroomy.size_ne (hshape.wf _) hn
  · obtain ⟨⟨filled, inserted⟩, hloop, -⟩ :
        ∃ r, st.addLoop rt rows.length [] rows = .ok r ∧
          Index.Roomy r.1 ((addedRows edits).length + rows.length) :=
      Index.addLoop_total (Nat.le_refl _) hrows hshape.wf hroomy
    obtain ⟨handovers, hhands, hall, rfl⟩ := Index.addLoop_hands hloop
    obtain ⟨st', hadd, -⟩ := Index.add_total rt hshape hroomy hrows
    obtain ⟨reported, hfill, hmerge⟩ := bind_eq_ok.mp hadd
    refine ⟨handovers, filled, reported, st', hhands, hall, hhands.segments, hloop, ?_, ?_, hadd⟩
    · rw [Index.fill, hloop, ok_bind] at hfill
      rw [← Except.ok.inj hfill]
      cases sealedSegments handovers with
      | nil => rfl
      | cons p ps => rfl
    · have hsame : reported.config = config := (Index.fill_config hfill).trans hconfig
      rw [← hsame]
      exact hmerge

/-- An id is erased, added again and erased again, so the size of the open segment has wrapped. Five
rows follow. -/
theorem sealing_loop_wrapped :
    ∃ st, (Index.create (lineRuntime Nat id) ⟨3, by decide, by decide, true, .flat⟩ false 0).run
        (lineRuntime Nat id)
        ([.add [(7, 10)], .erase [7], .add [(7, 20)], .erase [7]].map Edit.op) = .ok st ∧
      (st.seg st.last).size ≠ 3 ∧
      ∃ handovers filled, Hands (lineRuntime Nat id) st handovers filled ∧
        handovers.flatMap Handover.rows = [(1, 1), (2, 2), (3, 3), (4, 4), (5, 5)] := by
  obtain ⟨st, hrun, -, hsize, hadd⟩ := sealing_loop (lineRuntime Nat id)
    ⟨3, by decide, by decide, true, .flat⟩ false 0
    [.add [(7, 10)], .erase [7], .add [(7, 20)], .erase [7]] (by decide)
  obtain ⟨handovers, filled, -, -, hhands, hrows, -⟩ :=
    hadd [(1, 1), (2, 2), (3, 3), (4, 4), (5, 5)] (by decide)
  exact ⟨st, hrun, hsize, handovers, filled, hhands, hrows⟩

end Vecodex
