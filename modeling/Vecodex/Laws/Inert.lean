import Vecodex.Laws.Sealing

/-!
# Merges that find nothing to join

`add` ends with `storage_.merge(200)` when merging is enabled, and a merge joins two neighbours
only when their sizes together fit the amount. A segment is sealed with exactly the threshold as
its size, and `add` never touches it again. So in an index that was only added to, every segment of
the levels has the threshold as its size, whatever ids were repeated (`Heavy`), and with a
threshold above 100 no pair fits: every merge returns the index it was given (`Heavy.merge`).

`merging_inert` draws the conclusion for whole histories. The two values of `enable_merge` give the
same segments under the same ids, the same levels and the same calls of the callback.
-/

namespace Vecodex

open Lib

variable {B ID Vec Dist : Type} [DecidableEq ID]

namespace Index

/-- The index as it would be with the given flag. -/
def withMerging (enableMerge : Bool) (idx : Index B ID) : Index B ID :=
  { idx with config := { idx.config with enableMerge := enableMerge } }

/-! ## What does not read the flag -/

omit [DecidableEq ID] in
theorem storageAdd_withMerging {idx st : Index B ID} {p : Nat} (h : idx.storageAdd p = .ok st)
    (b : Bool) : (idx.withMerging b).storageAdd p = .ok (st.withMerging b) := by
  obtain ⟨r, hlevel, hst⟩ := bind_eq_ok.mp h
  cases hst
  exact bind_eq_ok.mpr ⟨r, hlevel, rfl⟩

omit [DecidableEq ID] in
theorem notify_withMerging (idx : Index B ID) (erased inserted : List Nat) (b : Bool) :
    (idx.withMerging b).notify erased inserted = (idx.notify erased inserted).withMerging b := by
  unfold notify
  by_cases hcallback : idx.callback = true
  · rw [if_pos hcallback, if_pos (show (idx.withMerging b).callback = true from hcallback)]
    rfl
  · rw [if_neg hcallback, if_neg (show ¬(idx.withMerging b).callback = true from hcallback)]

/-- The loop of `add` takes the same rounds under both flags. -/
theorem addLoop_withMerging {rt : Runtime B ID Vec Dist} {fuel : Nat} {idx : Index B ID}
    {inserted : List Nat} {rows : List (ID × Vec)} {r : Index B ID × List Nat}
    (h : idx.addLoop rt fuel inserted rows = .ok r) (b : Bool) :
    (idx.withMerging b).addLoop rt fuel inserted rows = .ok (r.1.withMerging b, r.2) := by
  induction fuel generalizing idx inserted rows with
  | zero =>
    cases rows with
    | nil => cases h; rfl
    | cons row rows => cases h
  | succ fuel ih =>
    cases rows with
    | nil => cases h; rfl
    | cons row rows =>
      rw [addLoop] at h
      split at h
      · cases h
      · next hbatch =>
        have hpos : (idx.withMerging b).batchSize (row :: rows).length ≠ 0 := hbatch
        dsimp only at h
        split at h
        · next hfull =>
          obtain ⟨next, hseal, hrest⟩ := bind_eq_ok.mp h
          obtain ⟨st, hst, hnext⟩ := bind_eq_ok.mp hseal
          cases hnext
          rw [addLoop_full rfl hpos rfl hfull (storageAdd_withMerging hst b)]
          exact ih hrest
        · next hopen =>
          rw [addLoop_open rfl hpos rfl hopen]
          exact ih h

theorem fill_withMerging {rt : Runtime B ID Vec Dist} {idx next : Index B ID}
    {rows : List (ID × Vec)} (h : idx.fill rt rows = .ok next) (b : Bool) :
    (idx.withMerging b).fill rt rows = .ok (next.withMerging b) := by
  obtain ⟨⟨filled, inserted⟩, hloop, hnext⟩ := bind_eq_ok.mp h
  refine bind_eq_ok.mpr ⟨_, addLoop_withMerging hloop b, ?_⟩
  cases hnext
  show Except.ok _ = Except.ok _
  split
  · rw [notify_withMerging]
  · rfl

/-! ## Levels of sealed segments -/

/-- The levels hold sealed segments that nothing has changed since, and no merge left a trace. -/
structure Heavy (idx : Index B ID) : Prop where
  shape : Shape idx.rest
  full : idx.levels.Full
  size : ∀ p ∈ idx.current, (idx.seg p).size = idx.config.segmentThreshold
  calls : ∀ call ∈ idx.calls, call.erased = []
  trace : idx.trace = []

theorem levelLoop_full {size fuel i i' : Nat} {levels levels' : Grid Nat}
    (h : levelLoop size fuel i levels = .ok (i', levels')) (hfull : levels.Full) :
    levels'.Full := by
  induction fuel generalizing i levels with
  | zero => cases h
  | succ fuel ih =>
    rw [levelLoop] at h
    split at h
    · refine ih h ?_
      split
      · exact hfull.grow
      · exact hfull
    · cases h
      exact hfull

omit [DecidableEq ID] in
theorem storageAdd_full {idx st : Index B ID} {p : Nat} (h : idx.storageAdd p = .ok st)
    (hfull : idx.levels.Full) : st.levels.Full := by
  obtain ⟨⟨i, levels⟩, hlevel, hst⟩ := bind_eq_ok.mp h
  cases hst
  exact (levelLoop_full hlevel hfull).push (i - 1) p

namespace Heavy

variable {rt : Runtime B ID Vec Dist} {idx : Index B ID}

theorem create (rt : Runtime B ID Vec Dist) (config : IndexConfig) (callback : Bool)
    (draws : Nat) : Heavy (create rt config callback draws : Index B ID) where
  shape := Shape.create rt config callback draws
  full row hrow := by cases hrow
  size p hp := by cases hp
  calls call hcall := by cases hcall
  trace := rfl

theorem append (h : Heavy idx) (rows : List (ID × Vec)) : Heavy (idx.appendLast rt rows) where
  shape := h.shape.append rows
  full := h.full
  size p hp := by
    have hne : p ≠ idx.last := fun heq => h.shape.last_current (heq ▸ hp)
    rw [appendLast_seg, if_neg hne]
    exact h.size p hp
  calls := h.calls
  trace := h.trace

theorem sealLast (h : Heavy idx)
    (hnet : (idx.seg idx.last).index.net = idx.config.segmentThreshold) {st : Index B ID}
    (stored : idx.storageAdd idx.last = .ok st) : Heavy (st.openNext rt) := by
  have hshape : Shape { idx.rest with index := st.openNext rt, fresh := idx.rest.fresh ++ _ } :=
    h.shape.sealLast ⟨rfl, rfl⟩ stored
  have hfull := storageAdd_full stored h.full
  have hsize : ∀ p ∈ (st.openNext rt).current,
      ((st.openNext rt).seg p).size = idx.config.segmentThreshold := by
    intro p hp
    have hp := (mem_openNext_current stored).mp hp
    have hne : p ≠ idx.heap.next := Nat.ne_of_lt (h.shape.owner_alloc hp)
    rw [openNext_seg stored, if_neg hne]
    rcases hp with hp | rfl
    · exact h.size p hp
    · show sizeT (idx.seg idx.last).index.net = _
      have hint := idx.config.threshold_int
      rw [hnet]
      unfold sizeT
      omega
  obtain ⟨levels, -, rfl⟩ := storageAdd_eq_ok stored
  exact ⟨⟨hshape.wf, hshape.nodup, hshape.current_alloc, hshape.segments_alloc,
    hshape.last_alloc, hshape.last_current, hshape.last_segments, hshape.inserted_current,
    hshape.inserted_row⟩, hfull, hsize, h.calls, h.trace⟩

theorem report (h : Heavy idx) (inserted : List Nat) : Heavy (idx.notify [] inserted) := by
  have hshape : Shape (idx.notify [] inserted).rest := h.shape.notify [] inserted []
  have hcalls : ∀ call ∈ (idx.notify [] inserted).calls, call.erased = [] := by
    unfold notify
    split
    · intro call hcall
      rcases List.mem_append.mp hcall with hcall | hcall
      · exact h.calls call hcall
      · rw [List.mem_singleton.mp hcall]
    · exact h.calls
  obtain ⟨calls, heq⟩ := idx.notify_eq [] inserted
  rw [heq] at hshape hcalls ⊢
  exact ⟨hshape, h.full, h.size, hcalls, h.trace⟩

/-- The loop of `add` can rely on it. -/
theorem feeds (rt : Runtime B ID Vec Dist) :
    Feeds rt fun (idx : Index B ID) (rows : List (ID × Vec)) =>
      ((∀ p, (idx.seg p).index.Wf) ∧
        (idx.seg idx.last).index.nextId + rows.length < 2 ^ 62) ∧ Heavy idx where
  low h := (feeds_rows rt).low h.1
  append n h := ⟨(feeds_rows rt).append n h.1, h.2.append _⟩
  sealed h hnet hst := ⟨(feeds_rows rt).sealed h.1 hnet hst, h.2.sealLast hnet hst⟩
  report inserted h := ⟨(feeds_rows rt).report inserted h.1, h.2.report inserted⟩

/-- Two segments of a threshold above 100 do not fit into 200. -/
theorem merge (h : Heavy idx) (hthreshold : 100 < idx.config.segmentThreshold)
    (rt : Runtime B ID Vec Dist) : idx.merge rt 200 = .ok idx := by
  have hnone : idx.NoneFits 200 := by
    intro i j a b ha hb
    have hint := idx.config.threshold_int
    rw [h.size a (mem_current_of_cell ha), h.size b (mem_current_of_cell hb)]
    unfold sizeT
    omega
  rw [hnone.merge, compactLevels, h.full.compact]

theorem withMerging (h : Heavy idx) (b : Bool) : Heavy (idx.withMerging b) :=
  ⟨⟨h.shape.wf, h.shape.nodup, h.shape.current_alloc, h.shape.segments_alloc, h.shape.last_alloc,
    h.shape.last_current, h.shape.last_segments, h.shape.inserted_current, h.shape.inserted_row⟩,
    h.full, h.size, h.calls, h.trace⟩

/-- An `add` ends in the same index under both flags. -/
theorem add (rt : Runtime B ID Vec Dist) {n : Nat} (h : Heavy idx) (hroomy : Roomy idx n)
    (hthreshold : 100 < idx.config.segmentThreshold) {rows : List (ID × Vec)}
    (hn : n + rows.length < 2 ^ 62) :
    ∃ next, (∀ b, (idx.withMerging b).add rt rows = .ok (next.withMerging b)) ∧ Heavy next ∧
      Roomy next (n + rows.length) ∧ next.config = idx.config := by
  have hrows := hroomy.rows
  have hroom : (idx.seg idx.last).index.nextId + rows.length < 2 ^ 62 := by omega
  obtain ⟨next, hfill, hnext, -, hheavy⟩ :=
    fill_feeds (feeds rt) hroomy ⟨⟨h.shape.wf, hroom⟩, h⟩
  have hconfig := fill_config hfill
  refine ⟨next, fun b => ?_, hheavy, hnext, hconfig⟩
  unfold Index.add
  rw [fill_withMerging hfill b, ok_bind]
  split
  · exact (hheavy.withMerging b).merge (by rw [← hconfig] at hthreshold; exact hthreshold) rt
  · rfl

theorem run (rt : Runtime B ID Vec Dist) {n : Nat} (h : Heavy idx) (hroomy : Roomy idx n)
    (hthreshold : 100 < idx.config.segmentThreshold) {batches : List (List (ID × Vec))}
    (hn : n + batches.flatten.length < 2 ^ 62) :
    ∃ st, (∀ b, (idx.withMerging b).run rt (batches.map Op.add) = .ok (st.withMerging b)) ∧
      Heavy st := by
  induction batches generalizing idx n with
  | nil => exact ⟨idx, fun b => rfl, h⟩
  | cons rows batches ih =>
    rw [List.flatten_cons, List.length_append] at hn
    obtain ⟨next, hadd, hnext, hroom, hconfig⟩ := h.add rt hroomy hthreshold
      (by omega : n + rows.length < 2 ^ 62)
    obtain ⟨st, hrun, hst⟩ := ih hnext hroom (by rwa [hconfig]) (by omega)
    refine ⟨st, fun b => ?_, hst⟩
    rw [List.map_cons, Index.run, List.foldlM_cons]
    exact bind_eq_ok.mpr ⟨_, hadd b, hrun b⟩

end Heavy

end Index

open Index

/-- In a history of `add` calls, with ids that may repeat, an index with a threshold above 100 is
the same whether merging is enabled or not: the run returns with the same segments, levels, ids and
reported calls. No two segments are ever joined, and no segment is ever reported as erased. -/
theorem merging_inert (rt : Runtime B ID Vec Dist) (config : IndexConfig) (callback : Bool)
    (draws : Nat) (batches : List (List (ID × Vec))) (hthreshold : 100 < config.segmentThreshold)
    (hrows : batches.flatten.length < 2 ^ 62) :
    ∃ st : Index B ID, st.trace = [] ∧ (∀ call ∈ st.calls, call.erased = []) ∧
      ∀ enableMerge, (create rt { config with enableMerge := enableMerge } callback draws).run rt
        (batches.map Op.add) = .ok (st.withMerging enableMerge) := by
  obtain ⟨st, hrun, hst⟩ := (Heavy.create rt config callback draws).run rt
    (Roomy.create rt config callback draws 0) hthreshold (by rwa [Nat.zero_add])
  exact ⟨st, hst.trace, hst.calls, hrun⟩

/-- The smallest threshold whose segments no `add` joins. -/
def heavyConfig : IndexConfig where
  segmentThreshold := 101
  threshold_pos := Nat.succ_pos 100
  threshold_int := Nat.le_of_ble_eq_true rfl
  enableMerge := true
  kind := .flat

theorem merging_inert_heavy :
    ∃ st : Index (List Nat) Nat, st.trace = [] ∧ (∀ call ∈ st.calls, call.erased = []) ∧
      ∀ enableMerge, (create (lineRuntime Nat id)
        { heavyConfig with enableMerge := enableMerge } true 0).run (lineRuntime Nat id)
          ([List.replicate 300 (7, 1), (List.range 202).map fun n => (n, n)].map Op.add) =
        .ok (st.withMerging enableMerge) :=
  merging_inert (lineRuntime Nat id) heavyConfig true 0 _ (Nat.lt_succ_self 100)
    (by decide +kernel)

end Vecodex
