import Mathlib.Logic.Relation
import Vecodex.Index.Index
import Vecodex.Laws.Faiss
import Vecodex.Lib.Runs

/-!
# What an index can do in one step

Every call on an index is a sequence of the steps of `Step`: rows are appended to the open
segment, the open segment is sealed, two neighbours of a level are joined, a pass of a merge ends,
and so on. `run_runs` says so for a whole history. A property of the index is then shown to
be an invariant by going through the steps once; no proof below takes the loops of `add` and
`merge` apart again.

Inside a call the index is not at rest. `Work` carries what is pending: the sealed segments `add`
has not reported yet, and the level, the ids and the segments of the current pass of a merge.

A step shows what it changes from outside: documents put or dropped, and segments pushed. The
labels of a history are those of its calls (`Op.changes`).
-/

namespace Vecodex

open Lib
open Relation (ReflTransGen)

variable {B ID Vec Dist : Type} [DecidableEq ID]

/-- A change made from outside. -/
inductive Change (B ID Vec : Type)
  | put (x : ID) (v : Vec)
  | drop (ids : List ID)
  | push (segment : Segment B ID)

def Op.changes : Op B ID Vec → List (Change B ID Vec)
  | .add rows => rows.map fun r => .put r.1 r.2
  | .erase ids => [.drop ids]
  | .push segment _ => [.push segment]
  | .eraseSegment _ => []

/-- All rows a history adds. -/
def addedRows (edits : List (Edit ID Vec)) : List (ID × Vec) :=
  edits.flatMap fun
    | .add rows => rows
    | .erase _ => []

/-- An index in the middle of a call. -/
structure Work (B ID : Type) where
  index : Index B ID
  /-- Sealed by this call and not reported yet. -/
  fresh : List Nat
  level : Nat
  erased : List Nat
  inserted : List Nat

/-- An index between two calls. -/
def Index.rest (idx : Index B ID) : Work B ID := ⟨idx, [], 0, [], []⟩

/-- No pass of a merge is under way. -/
def Work.Idle (w : Work B ID) : Prop := w.erased = [] ∧ w.inserted = []

/-- The index after `b` was merged into its left neighbour `a`, cell `j` of level `i`. -/
def Index.join (rt : Runtime B ID Vec Dist) (idx : Index B ID) (i j a b : Nat) : Index B ID :=
  { idx with
    heap := idx.heap.set a
      { segId := rt.rand idx.draws
        index := (idx.seg a).index.addBatch rt ((idx.seg b).index.survivors rt) }
    draws := idx.draws + 1
    levels := idx.levels.promote i j a
    counter := sizeT (idx.counter - 1)
    trace := idx.trace ++ [.joined (idx.seg a) (idx.seg b)] }

/-- The index after the null cells were removed from its levels. -/
def Index.compactLevels (idx : Index B ID) : Index B ID :=
  { idx with levels := idx.levels.compact }

/-- The index after other objects of the process took `n` values from `rand()`. -/
def Index.elsewhere (idx : Index B ID) (n : Nat) : Index B ID :=
  { idx with draws := idx.draws + n }

/-- One step of a merge: two neighbours of the level are joined, the pass over the level ends, or
the levels are compacted after the last pass. -/
inductive MergeStep (rt : Runtime B ID Vec Dist) : Work B ID → Work B ID → Prop
  | join (w : Work B ID) (j : Nat) {a b : Nat} (reported : w.fresh = [])
      (left : w.index.levels.cell w.level j = some a)
      (right : w.index.levels.cell w.level (j + 1) = some b)
      (kinds : (w.index.seg a).index.kind = (w.index.seg b).index.kind) :
    MergeStep rt w { w with
      index := w.index.join rt w.level j a b
      erased := w.erased ++ [w.index.idOf b, w.index.idOf a]
      inserted := w.inserted ++ [a] }
  | finish (w : Work B ID) :
    MergeStep rt w { w with
      index := w.index.finishPass w.erased w.inserted
      level := w.level + 1
      erased := []
      inserted := [] }
  | compact (w : Work B ID) (idle : w.Idle) :
    MergeStep rt w { w with index := w.index.compactLevels, level := 0 }

/-- One step of an index. -/
inductive Step (rt : Runtime B ID Vec Dist) :
    List (Change B ID Vec) → Work B ID → Work B ID → Prop
  | append (w : Work B ID) (rows : List (ID × Vec)) :
    Step rt (rows.map fun r => .put r.1 r.2) w { w with index := w.index.appendLast rt rows }
  | sealLast (w : Work B ID) {idx : Index B ID} (idle : w.Idle)
      (full : (w.index.seg w.index.last).size = w.index.config.segmentThreshold)
      (stored : w.index.storageAdd w.index.last = .ok idx) :
    Step rt [] w { w with index := idx.openNext rt, fresh := w.fresh ++ [w.index.last] }
  | report (w : Work B ID) :
    Step rt [] w { w with index := w.index.notify [] w.fresh, fresh := [] }
  | merge {w w' : Work B ID} (hmerge : MergeStep rt w w') : Step rt [] w w'
  | elsewhere (w : Work B ID) (n : Nat) :
    Step rt [] w { w with index := w.index.elsewhere n }
  | erase (w : Work B ID) (ids : List ID) :
    Step rt [.drop ids] w { w with index := w.index.erase ids }
  | push (w : Work B ID) {segment : Segment B ID} (wf : segment.index.Wf) {idx : Index B ID}
      (idle : w.Idle) (stored : w.index.pushSegment segment = .ok idx) :
    Step rt [.push segment] w { w with index := idx }

/-! ## `add` -/

namespace Index

omit [DecidableEq ID] in
theorem sealLast_eq_ok {rt : Runtime B ID Vec Dist} {idx next : Index B ID}
    (h : idx.sealLast rt = .ok next) :
    ∃ st, idx.storageAdd idx.last = .ok st ∧ next = st.openNext rt := by
  obtain ⟨st, hst, hnext⟩ := bind_eq_ok.mp h
  exact ⟨st, hst, (Except.ok.inj hnext).symm⟩

/-- One round of the loop of `add`. -/
theorem addLoop_round {rt : Runtime B ID Vec Dist} {fuel : Nat} {idx : Index B ID}
    {inserted : List Nat} {row : ID × Vec} {rows : List (ID × Vec)} {r : Index B ID × List Nat}
    (h : idx.addLoop rt (fuel + 1) inserted (row :: rows) = .ok r) :
    ∃ batch filled, batch = idx.batchSize (row :: rows).length ∧ batch ≠ 0 ∧
      filled = idx.appendLast rt ((row :: rows).take batch) ∧
      ((filled.seg filled.last).size = filled.config.segmentThreshold ∧
          (∃ st, filled.storageAdd filled.last = .ok st ∧
            (st.openNext rt).addLoop rt fuel (inserted ++ [filled.last])
              ((row :: rows).drop batch) = .ok r) ∨
        (filled.seg filled.last).size ≠ filled.config.segmentThreshold ∧
          filled.addLoop rt fuel inserted ((row :: rows).drop batch) = .ok r) := by
  rw [addLoop] at h
  dsimp only at h
  split at h
  · cases h
  · next hne =>
    refine ⟨_, _, rfl, hne, rfl, ?_⟩
    split at h
    · next hfull =>
      obtain ⟨next, hnext, hrest⟩ := bind_eq_ok.mp h
      obtain ⟨st, hst, rfl⟩ := sealLast_eq_ok hnext
      exact Or.inl ⟨hfull, st, hst, hrest⟩
    · next hopen => exact Or.inr ⟨hopen, h⟩

/-- A round of the loop of `add` that fills the open segment. -/
theorem addLoop_full {rt : Runtime B ID Vec Dist} {fuel : Nat} {idx filled st : Index B ID}
    {inserted : List Nat} {row : ID × Vec} {rows : List (ID × Vec)} {batch : Nat}
    (hbatch : batch = idx.batchSize (row :: rows).length) (hpos : batch ≠ 0)
    (hfilled : filled = idx.appendLast rt ((row :: rows).take batch))
    (hfull : (filled.seg filled.last).size = filled.config.segmentThreshold)
    (hst : filled.storageAdd filled.last = .ok st) :
    idx.addLoop rt (fuel + 1) inserted (row :: rows) =
      (st.openNext rt).addLoop rt fuel (inserted ++ [filled.last]) ((row :: rows).drop batch) := by
  subst hbatch hfilled
  rw [addLoop]
  dsimp only
  rw [if_neg hpos, if_pos hfull, show sealLast rt _ = .ok (st.openNext rt) from
    bind_eq_ok.mpr ⟨st, hst, rfl⟩, ok_bind]

/-- A round of the loop of `add` that leaves the segment open. -/
theorem addLoop_open {rt : Runtime B ID Vec Dist} {fuel : Nat} {idx filled : Index B ID}
    {inserted : List Nat} {row : ID × Vec} {rows : List (ID × Vec)} {batch : Nat}
    (hbatch : batch = idx.batchSize (row :: rows).length) (hpos : batch ≠ 0)
    (hfilled : filled = idx.appendLast rt ((row :: rows).take batch))
    (hopen : (filled.seg filled.last).size ≠ filled.config.segmentThreshold) :
    idx.addLoop rt (fuel + 1) inserted (row :: rows) =
      filled.addLoop rt fuel inserted ((row :: rows).drop batch) := by
  subst hbatch hfilled
  rw [addLoop]
  dsimp only
  rw [if_neg hpos, if_neg hopen]

/-- The loop of `add` appends its rows batch by batch and seals in between. -/
theorem addLoop_runs {rt : Runtime B ID Vec Dist} {fuel : Nat} {idx idx' : Index B ID}
    {inserted inserted' : List Nat} {rows : List (ID × Vec)}
    (h : idx.addLoop rt fuel inserted rows = .ok (idx', inserted')) :
    Runs (Step rt) (rows.map fun r => .put r.1 r.2) ⟨idx, inserted, 0, [], []⟩
      ⟨idx', inserted', 0, [], []⟩ := by
  induction fuel generalizing idx inserted rows with
  | zero =>
    cases rows with
    | nil =>
      cases h
      exact .nil _
    | cons row rows => cases h
  | succ fuel ih =>
    cases rows with
    | nil =>
      cases h
      exact .nil _
    | cons row rows =>
      obtain ⟨batch, filled, -, -, rfl, hround⟩ := addLoop_round h
      rw [← List.take_append_drop batch (row :: rows), List.map_append]
      refine (Runs.single (.append ⟨idx, inserted, 0, [], []⟩ _)).trans ?_
      rcases hround with ⟨hfull, st, hst, hrest⟩ | ⟨-, hrest⟩
      · have hseal : Step rt [] ⟨idx.appendLast rt ((row :: rows).take batch), inserted, 0, [], []⟩
            _ := .sealLast _ ⟨rfl, rfl⟩ hfull hst
        exact (Runs.single hseal).trans (ih hrest)
      · exact ih hrest

/-- `add` up to the merge: the loop and the report of what it sealed. -/
theorem fill_runs {rt : Runtime B ID Vec Dist} {idx idx' : Index B ID} {rows : List (ID × Vec)}
    (h : idx.fill rt rows = .ok idx') :
    Runs (Step rt) (rows.map fun r => .put r.1 r.2) idx.rest idx'.rest := by
  obtain ⟨⟨filled, inserted⟩, hloop, hnotify⟩ := bind_eq_ok.mp h
  have hfill := addLoop_runs hloop
  cases inserted with
  | nil =>
    cases hnotify
    exact hfill
  | cons p ps =>
    cases hnotify
    exact hfill.silent (.report _)

/-! ## `merge` -/

/-- The body of the inner loop leaves the state alone or joins the two cells. -/
theorem mergePair_eq_ok {rt : Runtime B ID Vec Dist} {i j : Nat} {s t : MergeState B ID}
    (h : mergePair rt i s j = .ok t) :
    t = s ∨ ∃ a b, s.index.levels.cell i j = some a ∧ s.index.levels.cell i (j + 1) = some b ∧
      sizeT ((s.index.seg a).size + (s.index.seg b).size) ≤ s.amount ∧
      (s.index.seg a).index.kind = (s.index.seg b).index.kind ∧
      t = { index := s.index.join rt i j a b
            amount := s.amount - sizeT ((s.index.seg a).size + (s.index.seg b).size)
            erased := s.erased ++ [s.index.idOf b, s.index.idOf a]
            inserted := s.inserted ++ [a] } := by
  unfold mergePair at h
  split at h
  · next a b ha hb =>
    dsimp only at h
    split at h
    · exact Or.inl (Except.ok.inj h).symm
    · next hneed =>
      right
      obtain ⟨merged, hmerged, ht⟩ := bind_eq_ok.mp h
      obtain ⟨g, hg, hmerged⟩ := bind_eq_ok.mp hmerged
      obtain ⟨hkind, rfl⟩ := FaissIndex.mergeFromOther_eq_ok.mp hg
      cases hmerged
      exact ⟨a, b, ha, hb, by omega, hkind, (Except.ok.inj ht).symm⟩
  · exact Or.inl (Except.ok.inj h).symm

end Index

/-- The state of a merge at level `i` as work on the index. -/
def MergeState.work (s : MergeState B ID) (i : Nat) : Work B ID :=
  ⟨s.index, [], i, s.erased, s.inserted⟩

namespace Index

theorem joinPairs_steps {rt : Runtime B ID Vec Dist} {i : Nat} {s t : MergeState B ID}
    (h : joinPairs rt i s = .ok t) : ReflTransGen (MergeStep rt) (s.work i) (t.work i) := by
  refine foldlM_preserves (P := fun u => ReflTransGen (MergeStep rt) (s.work i) (u.work i)) ?_
    .refl h
  intro u t j _ hu hstep
  rcases mergePair_eq_ok hstep with rfl | ⟨a, b, ha, hb, -, hkind, rfl⟩
  · exact hu
  · exact hu.tail (.join (u.work i) j rfl ha hb hkind)

/-- The outer loop of a merge: joins, and the end of each pass. It ends with nothing pending. -/
theorem mergeLoop_steps {rt : Runtime B ID Vec Dist} {fuel i : Nat} {s t : MergeState B ID}
    (h : mergeLoop rt fuel i s = .ok t) (he : s.erased = []) (hi : s.inserted = []) :
    (∃ k, ReflTransGen (MergeStep rt) (s.work i) (t.work k)) ∧ t.erased = [] ∧
      t.inserted = [] := by
  induction fuel generalizing i s with
  | zero =>
    rw [mergeLoop] at h
    split at h
    · cases h
    · cases h
      exact ⟨⟨i, .refl⟩, he, hi⟩
  | succ fuel ih =>
    rw [mergeLoop] at h
    split at h
    · obtain ⟨u, hu, hrest⟩ := bind_eq_ok.mp h
      obtain ⟨⟨k, hsteps⟩, hend⟩ := ih hrest rfl rfl
      exact ⟨⟨k, ((joinPairs_steps hu).tail (.finish (u.work i))).trans hsteps⟩, hend⟩
    · cases h
      exact ⟨⟨i, .refl⟩, he, hi⟩

theorem merge_steps {rt : Runtime B ID Vec Dist} {idx idx' : Index B ID} {amount : Nat}
    (h : idx.merge rt amount = .ok idx') : ReflTransGen (MergeStep rt) idx.rest idx'.rest := by
  obtain ⟨s, hloop, hs⟩ := bind_eq_ok.mp h
  obtain ⟨⟨k, hsteps⟩, he, hi⟩ := mergeLoop_steps hloop rfl rfl
  cases hs
  have hwork : s.work k = ⟨s.index, [], k, [], []⟩ := by
    unfold MergeState.work
    rw [he, hi]
  rw [hwork] at hsteps
  exact hsteps.tail (.compact _ ⟨rfl, rfl⟩)

theorem merge_runs {rt : Runtime B ID Vec Dist} {idx idx' : Index B ID} {amount : Nat}
    (h : idx.merge rt amount = .ok idx') : Runs (Step rt) [] idx.rest idx'.rest := by
  have hsteps := merge_steps h
  generalize idx'.rest = w at hsteps
  induction hsteps with
  | refl => exact .nil _
  | tail _ hstep ih => exact ih.silent (.merge hstep)

/-! ## Merges that join nothing -/

/-- No two neighbours of a level fit the amount. -/
def NoneFits (idx : Index B ID) (amount : Nat) : Prop :=
  ∀ i j a b, idx.levels.cell i j = some a → idx.levels.cell i (j + 1) = some b →
    amount < sizeT ((idx.seg a).size + (idx.seg b).size)

theorem NoneFits.mergePair {s : MergeState B ID} (h : s.index.NoneFits s.amount)
    (rt : Runtime B ID Vec Dist) (i j : Nat) : mergePair rt i s j = .ok s := by
  unfold Index.mergePair
  split
  · next a b ha hb => exact if_pos (h i j a b ha hb)
  · rfl

theorem NoneFits.joinPairs {s : MergeState B ID} (h : s.index.NoneFits s.amount)
    (rt : Runtime B ID Vec Dist) (i : Nat) : joinPairs rt i s = .ok s := by
  unfold Index.joinPairs
  induction List.range ((s.index.levels[i]?.getD []).length - 1) with
  | nil => rfl
  | cons j js ih => rw [List.foldlM_cons, h.mergePair rt i j, ok_bind, ih]

theorem NoneFits.mergeLoop {idx : Index B ID} {amount : Nat} (h : idx.NoneFits amount)
    (rt : Runtime B ID Vec Dist) {fuel i : Nat} (hfuel : Grid.weight i idx.levels ≤ fuel) :
    mergeLoop rt fuel i ⟨idx, amount, [], []⟩ = .ok ⟨idx, amount, [], []⟩ := by
  induction fuel generalizing i with
  | zero =>
    rw [Index.mergeLoop, if_neg]
    intro hrun
    have hlevel : i < idx.levels.length := hrun.2
    exact absurd (Grid.weight_succ_lt hlevel) (by omega)
  | succ fuel ih =>
    rw [Index.mergeLoop]
    split
    · next hrun =>
      have hpass : idx.finishPass [] [] = idx := by
        show ({ idx with segments := idx.segments ++ [] } : Index B ID) = idx
        rw [List.append_nil]
      have hlevel : i < idx.levels.length := hrun.2
      have hlt := Grid.weight_succ_lt hlevel
      rw [NoneFits.joinPairs (s := ⟨idx, amount, [], []⟩) h rt i, ok_bind, hpass]
      exact ih (by omega)
    · rfl

/-- Such a merge only removes the null cells. -/
theorem NoneFits.merge {idx : Index B ID} {amount : Nat} (h : idx.NoneFits amount)
    (rt : Runtime B ID Vec Dist) : idx.merge rt amount = .ok idx.compactLevels :=
  bind_eq_ok.mpr ⟨_, h.mergeLoop rt (Nat.le_refl _), rfl⟩

/-! ## Histories -/

theorem add_runs {rt : Runtime B ID Vec Dist} {idx idx' : Index B ID} {rows : List (ID × Vec)}
    (h : idx.add rt rows = .ok idx') :
    Runs (Step rt) (rows.map fun r => .put r.1 r.2) idx.rest idx'.rest := by
  obtain ⟨filled, hfill, hmerge⟩ := bind_eq_ok.mp h
  split at hmerge
  · have hruns := (fill_runs hfill).trans (merge_runs hmerge)
    rwa [List.append_nil] at hruns
  · cases hmerge
    exact fill_runs hfill

omit [DecidableEq ID] in
/-- `eraseSegment` leaves the index as it is. -/
theorem eraseSegment_same (idx : Index B ID) (id : Nat) : (idx.eraseSegment id).2 = idx := by
  unfold eraseSegment
  split <;> rfl

theorem exec_runs {rt : Runtime B ID Vec Dist} {idx idx' : Index B ID} {op : Op B ID Vec}
    (h : idx.exec rt op = .ok idx') : Runs (Step rt) op.changes idx.rest idx'.rest := by
  cases op with
  | add rows => exact add_runs h
  | erase ids =>
    cases h
    exact Runs.single (.erase idx.rest ids)
  | push segment wf => exact Runs.single (.push idx.rest wf ⟨rfl, rfl⟩ h)
  | eraseSegment id =>
    rw [exec, eraseSegment_same] at h
    cases h
    exact .nil _

/-- A history is a run of steps that shows the changes of its calls. -/
theorem run_runs {rt : Runtime B ID Vec Dist} {idx idx' : Index B ID} {ops : List (Op B ID Vec)}
    (h : idx.run rt ops = .ok idx') :
    Runs (Step rt) (ops.flatMap Op.changes) idx.rest idx'.rest := by
  induction ops generalizing idx with
  | nil =>
    cases h
    exact .nil _
  | cons op ops ih =>
    rw [run, List.foldlM_cons] at h
    obtain ⟨next, hnext, hrest⟩ := bind_eq_ok.mp h
    exact (exec_runs hnext).trans (ih hrest)

end Index

end Vecodex
