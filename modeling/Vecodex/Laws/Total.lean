import Vecodex.Laws.Shape

/-!
# Calls return

`add` can fail in four places: an empty batch, an undefined shift, a failed downcast and, in the
model, a loop that runs out of rounds. None is reached by a history of `add` and `erase` with
fewer than 2^62 vectors (`run_total`).

The size of a segment is a difference in `size_t` and may wrap below zero, when an id was erased,
added again and erased again. `FaissIndex.net` is the difference over the integers. The open
segment's is below the threshold between two batches (`Roomy`), so the next batch is not empty,
and a segment is sealed with the threshold itself as its size.
-/

namespace Vecodex

open Lib

variable {B ID Vec Dist : Type} [DecidableEq ID]

/-! ## Sizes -/

namespace FaissIndex

/-- `ids_.size() - erased_.size()` over the integers. -/
def net (f : FaissIndex B ID) : Int := f.ids.keys.length - f.erased.card

theorem length_keys_foldl_bindId (f : FaissIndex B ID) (xs : List ID) :
    (xs.foldl bindId f).ids.keys.length ≤ f.ids.keys.length + xs.length := by
  induction xs generalizing f with
  | nil => exact Nat.le_refl _
  | cons x xs ih =>
    have hstep : (f.bindId x).ids.keys.length ≤ f.ids.keys.length + 1 := by
      show (f.ids.insert x f.nextId).keys.length ≤ _
      rw [AList.keys_insert, List.length_cons]
      exact Nat.succ_le_succ List.length_erase_le
    have htail := ih (f.bindId x)
    rw [List.foldl_cons, List.length_cons]
    omega

/-- A batch adds at most its own length to the size. -/
theorem addBatch_net_le (rt : Runtime B ID Vec Dist) (f : FaissIndex B ID)
    (batch : List (ID × Vec)) : (f.addBatch rt batch).net ≤ f.net + batch.length := by
  have hkeys : (f.addBatch rt batch).ids.keys.length ≤ f.ids.keys.length + batch.length := by
    have h := length_keys_foldl_bindId { f with index := rt.faiss.add f.index (batch.map Prod.snd) }
      (batch.map Prod.fst)
    rwa [List.length_map] at h
  unfold net
  rw [addBatch_erased]
  omega

/-- An erase never enlarges the size. -/
theorem eraseBatch_net_le (f : FaissIndex B ID) (ids : List ID) :
    (f.eraseBatch ids).net ≤ f.net := by
  have hsub : f.erased ⊆ (f.eraseBatch ids).erased := fun p hp =>
    (mem_eraseBatch_erased f ids p).mpr (Or.inl hp)
  have hcard := Finset.card_le_card hsub
  unfold net
  rw [eraseBatch_ids]
  omega

/-- The size is not below zero by more than the number of positions. -/
theorem Wf.neg_le_net {f : FaissIndex B ID} (hf : f.Wf) : -(f.nextId : Int) ≤ f.net := by
  have hsub : f.erased ⊆ Finset.range f.nextId := fun p hp =>
    Finset.mem_range.mpr (hf.erased_lt p hp)
  have hcard := Finset.card_le_card hsub
  rw [Finset.card_range] at hcard
  unfold net
  omega

end FaissIndex

/-! ## `SegmentStorage::add` -/

namespace Index

theorem levelLoop_total {size fuel i : Nat} (hfuel : 0 < fuel) (hsize : size ≤ 2 ^ (i + fuel - 1))
    (levels : Grid Nat) : ∃ r, levelLoop size fuel i levels = .ok r := by
  induction fuel generalizing i levels with
  | zero => cases hfuel
  | succ fuel ih =>
    rw [levelLoop]
    split
    · next hlt =>
      have hpos : 0 < fuel := by
        by_contra hzero
        obtain rfl : fuel = 0 := by omega
        exact absurd hlt (Nat.not_lt.mpr hsize)
      exact ih hpos (by rwa [show i + 1 + fuel - 1 = i + (fuel + 1) - 1 by omega]) _
    · exact ⟨_, rfl⟩

omit [DecidableEq ID] in
theorem storageAdd_total (idx : Index B ID) {p : Nat} (hsize : (idx.seg p).size ≤ 2 ^ 63) :
    ∃ st, idx.storageAdd p = .ok st := by
  obtain ⟨r, hlevel⟩ : ∃ r, levelLoop (idx.seg p).size 64 0 idx.levels = .ok r :=
    levelLoop_total (by omega) hsize idx.levels
  exact ⟨_, bind_eq_ok.mpr ⟨r, hlevel, rfl⟩⟩

/-! ## `add` -/

/-- The segments are of the index's kind, and the open one has room; `n` bounds its positions. -/
structure Roomy (idx : Index B ID) (n : Nat) : Prop where
  kind : ∀ p, (idx.seg p).index.kind = idx.config.kind
  room : (idx.seg idx.last).index.net < idx.config.segmentThreshold
  rows : (idx.seg idx.last).index.nextId ≤ n

omit [DecidableEq ID] in
/-- While the open segment has room, the next batch is what is left or what fits. -/
theorem Roomy.batchSize {idx : Index B ID} {n : Nat} (h : Roomy idx n)
    (hlow : -(2 ^ 62 : Int) < (idx.seg idx.last).index.net) (k : Nat) :
    (idx.batchSize k : Int) =
      min (k : Int) (idx.config.segmentThreshold - (idx.seg idx.last).index.net) := by
  have hroom := h.room
  have hint := idx.config.threshold_int
  have hfit : (sizeT (idx.config.segmentThreshold - (idx.seg idx.last).size) : Int) =
      idx.config.segmentThreshold - (idx.seg idx.last).index.net := by
    show (sizeT (_ - (sizeT (idx.seg idx.last).index.net : Int)) : Int) = _
    unfold sizeT
    omega
  unfold Index.batchSize
  omega

/-- The open segment after a batch that fits. -/
theorem Roomy.append (rt : Runtime B ID Vec Dist) {idx : Index B ID} {n : Nat} (h : Roomy idx n)
    (rows : List (ID × Vec)) :
    (∀ p, ((idx.appendLast rt rows).seg p).index.kind = idx.config.kind) ∧
      ((idx.appendLast rt rows).seg idx.last).index.net ≤
        (idx.seg idx.last).index.net + rows.length ∧
      ((idx.appendLast rt rows).seg idx.last).index.nextId ≤ n + rows.length := by
  refine ⟨fun p => ?_, ?_, ?_⟩
  · rw [appendLast_seg]
    split
    · exact (FaissIndex.addBatch_kind rt _ rows).trans (h.kind p)
    · exact h.kind p
  · rw [appendLast_seg, if_pos rfl]
    exact FaissIndex.addBatch_net_le rt _ rows
  · rw [appendLast_seg, if_pos rfl]
    show (FaissIndex.addBatch rt _ rows).nextId ≤ _
    rw [FaissIndex.addBatch_nextId]
    exact Nat.add_le_add_right h.rows _

omit [DecidableEq ID] in
/-- A new open segment has room. -/
theorem roomy_openNext {rt : Runtime B ID Vec Dist} {idx st : Index B ID}
    (hkind : ∀ p, (idx.seg p).index.kind = idx.config.kind)
    (stored : idx.storageAdd idx.last = .ok st) (n : Nat) : Roomy (st.openNext rt) n := by
  have hconfig : (st.openNext rt).config = idx.config := by
    obtain ⟨levels, -, rfl⟩ := storageAdd_eq_ok stored
    rfl
  have hlast : (st.openNext rt).seg (st.openNext rt).last =
      freshSegment rt idx.config idx.draws := by
    rw [openNext_last stored, openNext_seg stored, if_pos rfl]
  constructor
  · intro p
    rw [hconfig, openNext_seg stored]
    split
    · rfl
    · exact hkind p
  · rw [hlast, hconfig]
    exact Int.ofNat_lt.mpr idx.config.threshold_pos
  · rw [hlast]
    exact Nat.zero_le _

/-- What the loop of `add` relies on, as a property of the index and the rows that remain: the
open segment's size is not far below zero, and batches, seals and reports keep the property. A
segment is sealed with the threshold as its size. -/
structure Feeds (rt : Runtime B ID Vec Dist) (P : Index B ID → List (ID × Vec) → Prop) : Prop where
  low : ∀ {idx rows}, P idx rows → -(2 ^ 62 : Int) < (idx.seg idx.last).index.net
  append : ∀ {idx rows} n, P idx rows → P (idx.appendLast rt (rows.take n)) (rows.drop n)
  sealed : ∀ {idx st rows}, P idx rows →
    (idx.seg idx.last).index.net = idx.config.segmentThreshold →
    idx.storageAdd idx.last = .ok st → P (st.openNext rt) rows
  report : ∀ {idx rows} inserted, P idx rows → P (idx.notify [] inserted) rows

/-- One round: the batch is not empty, and it fills the open segment exactly or leaves room. -/
theorem Roomy.round (rt : Runtime B ID Vec Dist) {n : Nat} {idx : Index B ID}
    {rows : List (ID × Vec)} (h : Roomy idx n) (hpos : 0 < rows.length) {batch : Nat}
    (hbatch : batch = idx.batchSize rows.length) {filled : Index B ID}
    (hfilled : filled = idx.appendLast rt (rows.take batch))
    (hlow : -(2 ^ 62 : Int) < (idx.seg idx.last).index.net)
    (hlow' : -(2 ^ 62 : Int) < (filled.seg filled.last).index.net) :
    batch ≠ 0 ∧ batch ≤ rows.length ∧
      ((filled.seg filled.last).size = filled.config.segmentThreshold ∧
          (filled.seg filled.last).index.net = filled.config.segmentThreshold ∧
          (∃ st, filled.storageAdd filled.last = .ok st ∧ Roomy (st.openNext rt) (n + batch)) ∨
        (filled.seg filled.last).size ≠ filled.config.segmentThreshold ∧
          Roomy filled (n + batch)) := by
  have hsize := h.batchSize hlow rows.length
  rw [← hbatch] at hsize
  have hroom := h.room
  have hint := idx.config.threshold_int
  obtain ⟨hkind, hnet, hnext⟩ := h.append rt (rows.take batch)
  have htake : (rows.take batch).length = batch := by
    rw [List.length_take]
    omega
  rw [htake, ← hfilled] at hnet hnext
  rw [← hfilled] at hkind
  have hlast : filled.last = idx.last := by rw [hfilled]; rfl
  have hconfig : filled.config = idx.config := by rw [hfilled]; rfl
  rw [hlast] at hlow'
  have hexact : (filled.seg idx.last).size = idx.config.segmentThreshold ↔
      (filled.seg idx.last).index.net = idx.config.segmentThreshold := by
    show sizeT (filled.seg idx.last).index.net = _ ↔ _
    unfold sizeT
    omega
  refine ⟨by omega, by omega, ?_⟩
  rw [hlast, hconfig]
  by_cases hfull : (filled.seg idx.last).size = idx.config.segmentThreshold
  · left
    obtain ⟨st, hst⟩ := filled.storageAdd_total (p := filled.last) (by rw [hlast]; omega)
    refine ⟨hfull, hexact.mp hfull, st, hlast ▸ hst, roomy_openNext (fun p => ?_) hst _⟩
    rw [hconfig]
    exact hkind p
  · right
    refine ⟨hfull, fun p => by rw [hconfig]; exact hkind p, ?_, by rw [hlast]; exact hnext⟩
    rw [hlast, hconfig]
    exact lt_of_le_of_ne (by omega) fun heq => hfull (hexact.mpr heq)

/-- The loop of `add` takes all its rows and keeps the property it relies on. -/
theorem addLoop_feeds {rt : Runtime B ID Vec Dist} {P : Index B ID → List (ID × Vec) → Prop}
    (hP : Feeds rt P) {fuel n : Nat} {idx : Index B ID} {inserted : List Nat}
    {rows : List (ID × Vec)} (hfuel : rows.length ≤ fuel) (h : Roomy idx n) (hidx : P idx rows) :
    ∃ r, idx.addLoop rt fuel inserted rows = .ok r ∧ Roomy r.1 (n + rows.length) ∧ P r.1 [] := by
  induction fuel generalizing n idx inserted rows with
  | zero =>
    obtain rfl : rows = [] := List.eq_nil_of_length_eq_zero (by omega)
    exact ⟨_, rfl, h, hidx⟩
  | succ fuel ih =>
    cases rows with
    | nil => exact ⟨_, rfl, h, hidx⟩
    | cons row rows =>
      have hsome : 0 < (row :: rows).length := Nat.succ_pos _
      have happend := hP.append (idx.batchSize (row :: rows).length) hidx
      obtain ⟨hpos, hle, hround⟩ := h.round rt hsome rfl rfl (hP.low hidx) (hP.low happend)
      generalize hbatch : idx.batchSize (row :: rows).length = batch at hpos hle hround happend
      generalize hfilled : idx.appendLast rt ((row :: rows).take batch) = filled
        at hround happend
      have hlen : ((row :: rows).drop batch).length + batch = (row :: rows).length := by
        rw [List.length_drop]
        omega
      have hcount : n + (row :: rows).length = n + batch + ((row :: rows).drop batch).length := by
        omega
      rw [hcount]
      rcases hround with ⟨hfull, hnet, st, hst, hroomy⟩ | ⟨hopen, hroomy⟩
      · rw [addLoop_full hbatch.symm hpos hfilled.symm hfull hst]
        exact ih (by omega) hroomy (hP.sealed happend hnet hst)
      · rw [addLoop_open hbatch.symm hpos hfilled.symm hopen]
        exact ih (by omega) hroomy happend

/-- `add` comes to its merge. -/
theorem fill_feeds {rt : Runtime B ID Vec Dist} {P : Index B ID → List (ID × Vec) → Prop}
    (hP : Feeds rt P) {n : Nat} {idx : Index B ID} {rows : List (ID × Vec)} (h : Roomy idx n)
    (hidx : P idx rows) :
    ∃ next, idx.fill rt rows = .ok next ∧ Roomy next (n + rows.length) ∧ P next [] := by
  obtain ⟨⟨filled, inserted⟩, hloop, hroomy, hfilled⟩ :
      ∃ r, idx.addLoop rt rows.length [] rows = .ok r ∧ Roomy r.1 (n + rows.length) ∧ P r.1 [] :=
    addLoop_feeds hP (Nat.le_refl _) h hidx
  refine ⟨_, bind_eq_ok.mpr ⟨_, hloop, rfl⟩, ?_⟩
  split
  · have hreport := hP.report inserted hfilled
    obtain ⟨calls, hcalls⟩ := filled.notify_eq [] inserted
    rw [hcalls] at hreport ⊢
    exact ⟨⟨hroomy.kind, hroomy.room, hroomy.rows⟩, hreport⟩
  · exact ⟨hroomy, hfilled⟩

/-- Well-formed segments and fewer than 2^62 vectors are enough for the loop. -/
theorem feeds_rows (rt : Runtime B ID Vec Dist) :
    Feeds rt fun (idx : Index B ID) (rows : List (ID × Vec)) =>
      (∀ p, (idx.seg p).index.Wf) ∧
        (idx.seg idx.last).index.nextId + rows.length < 2 ^ 62 where
  low := by
    intro idx rows ⟨hwf, hrows⟩
    have hlow := (hwf idx.last).neg_le_net
    omega
  append := by
    intro idx rows n ⟨hwf, hrows⟩
    refine ⟨fun p => ?_, ?_⟩
    · rw [appendLast_seg]
      split
      · exact (hwf p).addBatch rt _
      · exact hwf p
    · rw [show (idx.appendLast rt (rows.take n)).last = idx.last from rfl, appendLast_seg,
        if_pos rfl]
      show (FaissIndex.addBatch rt _ _).nextId + _ < _
      rw [FaissIndex.addBatch_nextId, List.length_take, List.length_drop]
      omega
  sealed := by
    intro idx st rows ⟨hwf, hrows⟩ _ hst
    refine ⟨fun p => ?_, ?_⟩
    · rw [openNext_seg hst]
      split
      · exact FaissIndex.wf_create rt _
      · exact hwf p
    · rw [openNext_last hst, openNext_seg hst, if_pos rfl]
      show 0 + rows.length < 2 ^ 62
      omega
  report := by
    intro idx rows inserted h
    obtain ⟨calls, hcalls⟩ := idx.notify_eq [] inserted
    rw [hcalls]
    exact h

/-- The loop of `add` takes all its rows. -/
theorem addLoop_total {rt : Runtime B ID Vec Dist} {fuel n : Nat} {idx : Index B ID}
    {inserted : List Nat} {rows : List (ID × Vec)} (hfuel : rows.length ≤ fuel)
    (hn : n + rows.length < 2 ^ 62) (hwf : ∀ p, (idx.seg p).index.Wf) (h : Roomy idx n) :
    ∃ r, idx.addLoop rt fuel inserted rows = .ok r ∧ Roomy r.1 (n + rows.length) := by
  have hrows := h.rows
  obtain ⟨r, hr, hroomy, -⟩ := addLoop_feeds (feeds_rows rt) hfuel h ⟨hwf, by omega⟩
  exact ⟨r, hr, hroomy⟩

/-! ## `merge` -/

theorem mergePair_total (rt : Runtime B ID Vec Dist) {i j : Nat} {s : MergeState B ID}
    (hkind : ∀ p q, (s.index.seg p).index.kind = (s.index.seg q).index.kind) :
    ∃ t, mergePair rt i s j = .ok t := by
  unfold mergePair
  split
  · next a b ha hb =>
    dsimp only
    split
    · exact ⟨_, rfl⟩
    · have hmerge : (s.index.seg a).index.mergeFromOther rt (s.index.seg b).index = .ok _ :=
        FaissIndex.mergeFromOther_eq_ok.mpr ⟨hkind a b, rfl⟩
      exact ⟨_, bind_eq_ok.mpr ⟨_, bind_eq_ok.mpr ⟨_, hmerge, rfl⟩, rfl⟩⟩
  · exact ⟨_, rfl⟩

/-- What the rounds of a merge keep: the kinds, the configuration and the open segment. -/
structure Merging (config : IndexConfig) (last : Nat) (segment : Segment B ID) (w : Work B ID) :
    Prop where
  shape : Shape w
  kind : ∀ p, (w.index.seg p).index.kind = config.kind
  config_eq : w.index.config = config
  last_eq : w.index.last = last
  segment_eq : w.index.seg last = segment

theorem Merging.join {rt : Runtime B ID Vec Dist} {config : IndexConfig} {last : Nat}
    {segment : Segment B ID} {w : Work B ID} (h : Merging config last segment w) {j a b : Nat}
    (left : w.index.levels.cell w.level j = some a)
    (right : w.index.levels.cell w.level (j + 1) = some b) :
    Merging config last segment { w with
      index := w.index.join rt w.level j a b
      erased := w.erased ++ [w.index.idOf b, w.index.idOf a]
      inserted := w.inserted ++ [a] } where
  shape := h.shape.join left right
  kind p := by
    show ((w.index.join rt w.level j a b).seg p).index.kind = config.kind
    rw [join_seg]
    split
    · exact (FaissIndex.addBatch_kind rt _ _).trans (h.kind a)
    · exact h.kind p
  config_eq := h.config_eq
  last_eq := h.last_eq
  segment_eq := by
    have hne : last ≠ a := by
      rintro rfl
      exact h.shape.last_current (h.last_eq.symm ▸ mem_current_of_cell left)
    show (w.index.join rt w.level j a b).seg last = segment
    rw [join_seg, if_neg hne]
    exact h.segment_eq

theorem Merging.finish {config : IndexConfig} {last : Nat} {segment : Segment B ID}
    {w : Work B ID} (h : Merging config last segment w) :
    Merging config last segment { w with
      index := w.index.finishPass w.erased w.inserted
      level := w.level + 1
      erased := []
      inserted := [] } := by
  have hshape := h.shape.finish
  obtain ⟨segments, trace, calls, heq, -, -⟩ := w.index.finishPass_eq w.erased w.inserted
  rw [heq] at hshape ⊢
  exact ⟨hshape, h.kind, h.config_eq, h.last_eq, h.segment_eq⟩

/-- The inner loop ends, and what it adds to the rows above comes from its own row. -/
theorem joinPairs_total (rt : Runtime B ID Vec Dist) {config : IndexConfig} {last : Nat}
    {segment : Segment B ID} {i : Nat} {s : MergeState B ID}
    (h : Merging config last segment (s.work i)) :
    ∃ t, joinPairs rt i s = .ok t ∧ Merging config last segment (t.work i) ∧
      Grid.weight (i + 1) t.index.levels + Grid.load i t.index.levels ≤
        Grid.weight (i + 1) s.index.levels + Grid.load i s.index.levels := by
  refine foldlM_total (P := fun t : MergeState B ID => Merging config last segment (t.work i) ∧
    Grid.weight (i + 1) t.index.levels + Grid.load i t.index.levels ≤
      Grid.weight (i + 1) s.index.levels + Grid.load i s.index.levels) ?_ ⟨h, Nat.le_refl _⟩
  intro u j _ hu
  obtain ⟨t, ht⟩ := mergePair_total rt (i := i) (j := j) (s := u) fun p q =>
    (hu.1.kind p).trans (hu.1.kind q).symm
  refine ⟨t, ht, ?_⟩
  rcases mergePair_eq_ok ht with rfl | ⟨a, b, ha, hb, -, -, rfl⟩
  · exact hu
  · exact ⟨Merging.join hu.1 ha hb, (Grid.weight_promote ha hb a).trans hu.2⟩

/-- The outer loop ends: leaving a level behind pays for what it promoted. -/
theorem mergeLoop_total (rt : Runtime B ID Vec Dist) {config : IndexConfig} {last : Nat}
    {segment : Segment B ID} {fuel i : Nat} {s : MergeState B ID}
    (hfuel : Grid.weight i s.index.levels ≤ fuel) (h : Merging config last segment (s.work i)) :
    ∃ t k, mergeLoop rt fuel i s = .ok t ∧ Merging config last segment (t.work k) := by
  induction fuel generalizing i s with
  | zero =>
    refine ⟨s, i, ?_, h⟩
    rw [mergeLoop, if_neg]
    rintro ⟨-, hlt⟩
    exact absurd (Grid.weight_succ_lt hlt) (by omega)
  | succ fuel ih =>
    rw [mergeLoop]
    split
    · next hrun =>
      obtain ⟨t, ht, hmerging, hweight⟩ := joinPairs_total rt h
      have hlt := Grid.weight_succ_lt hrun.2
      obtain ⟨segments, trace, calls, heq, -, -⟩ := t.index.finishPass_eq t.erased t.inserted
      have hlevels : (t.index.finishPass t.erased t.inserted).levels = t.index.levels := by
        rw [heq]
      rw [ht, ok_bind]
      refine ih ?_ hmerging.finish
      show Grid.weight (i + 1) (t.index.finishPass t.erased t.inserted).levels ≤ fuel
      rw [hlevels]
      omega
    · exact ⟨s, i, rfl, h⟩

theorem merge_total (rt : Runtime B ID Vec Dist) {idx : Index B ID} {n : Nat}
    (hshape : Shape idx.rest) (h : Roomy idx n) (amount : Nat) :
    ∃ idx', idx.merge rt amount = .ok idx' ∧ Roomy idx' n := by
  have hstart : Merging idx.config idx.last (idx.seg idx.last)
      (MergeState.work { index := idx, amount := amount, erased := [], inserted := [] } 0) :=
    ⟨hshape, h.kind, rfl, rfl, rfl⟩
  obtain ⟨t, k, ht, hend⟩ := mergeLoop_total rt (Nat.le_refl _) hstart
  refine ⟨_, bind_eq_ok.mpr ⟨t, ht, rfl⟩, ?_⟩
  have hconfig : t.index.config = idx.config := hend.config_eq
  have hlast : t.index.last = idx.last := hend.last_eq
  have hseg : t.index.seg idx.last = idx.seg idx.last := hend.segment_eq
  constructor
  · intro p
    show (t.index.seg p).index.kind = t.index.config.kind
    rw [hconfig]
    exact hend.kind p
  · show (t.index.seg t.index.last).index.net < t.index.config.segmentThreshold
    rw [hlast, hseg, hconfig]
    exact h.room
  · show (t.index.seg t.index.last).index.nextId ≤ n
    rw [hlast, hseg]
    exact h.rows

/-! ## Histories -/

theorem add_total (rt : Runtime B ID Vec Dist) {idx : Index B ID} {n : Nat}
    (hshape : Shape idx.rest) (h : Roomy idx n) {rows : List (ID × Vec)}
    (hn : n + rows.length < 2 ^ 62) :
    ∃ idx', idx.add rt rows = .ok idx' ∧ Shape idx'.rest ∧ Roomy idx' (n + rows.length) := by
  have hrows := h.rows
  have hroom : (idx.seg idx.last).index.nextId + rows.length < 2 ^ 62 := by omega
  obtain ⟨next, hfill, hnext, -⟩ := fill_feeds (feeds_rows rt) h ⟨hshape.wf, hroom⟩
  have hshape' : Shape next.rest := hshape.of_runs (fill_runs hfill)
  obtain ⟨last, hmerge, hlast⟩ := merge_total rt hshape' hnext 200
  unfold add
  rw [hfill, ok_bind]
  split
  · exact ⟨last, hmerge, hshape'.of_runs (merge_runs hmerge), hlast⟩
  · exact ⟨next, rfl, hshape', hnext⟩

theorem Roomy.erase {idx : Index B ID} {n : Nat} (h : Roomy idx n) (ids : List ID) :
    Roomy (idx.erase ids) n := by
  have hlast : (idx.erase ids).seg idx.last = (idx.seg idx.last).deleteBatch ids := by
    rw [erase_seg, if_pos (mem_visited.mpr (Or.inr rfl))]
  constructor
  · intro p
    rw [erase_seg]
    split
    · exact (FaissIndex.eraseBatch_kind _ ids).trans (h.kind p)
    · exact h.kind p
  · show ((idx.erase ids).seg idx.last).index.net < idx.config.segmentThreshold
    rw [hlast]
    exact lt_of_le_of_lt (FaissIndex.eraseBatch_net_le _ ids) h.room
  · show ((idx.erase ids).seg idx.last).index.nextId ≤ n
    rw [hlast]
    show ((idx.seg idx.last).index.eraseBatch ids).nextId ≤ n
    rw [FaissIndex.eraseBatch_nextId]
    exact h.rows

/-- A history runs to its end and leaves the open segment with room. -/
theorem run_total_from (rt : Runtime B ID Vec Dist) {idx : Index B ID} {n : Nat}
    (hshape : Shape idx.rest) (h : Roomy idx n) {edits : List (Edit ID Vec)}
    (hn : n + (addedRows edits).length < 2 ^ 62) :
    ∃ st, idx.run rt (edits.map Edit.op) = .ok st ∧ Shape st.rest ∧
      Roomy st (n + (addedRows edits).length) := by
  induction edits generalizing idx n with
  | nil => exact ⟨idx, rfl, hshape, h⟩
  | cons e edits ih =>
    rw [List.map_cons, run, List.foldlM_cons]
    cases e with
    | add rows =>
      have hlen : (addedRows (Edit.add rows :: edits)).length =
          rows.length + (addedRows edits).length := List.length_append
      have hadd : n + rows.length < 2 ^ 62 := by omega
      obtain ⟨next, hnext, hshape', hroomy⟩ := add_total rt hshape h hadd
      rw [show exec rt idx (Edit.op (Edit.add rows)) = .ok next from hnext, ok_bind, hlen,
        ← Nat.add_assoc]
      exact ih hshape' hroomy (by omega)
    | erase ids => exact ih (hshape.erase ids) (h.erase ids) hn

omit [DecidableEq ID] in
theorem Roomy.create (rt : Runtime B ID Vec Dist) (config : IndexConfig) (callback : Bool)
    (draws n : Nat) : Roomy (create rt config callback draws : Index B ID) n := by
  have hseg : ∀ p, (Index.create rt config callback draws : Index B ID).seg p =
      freshSegment rt config draws := create_seg rt config callback draws
  constructor
  · intro p
    rw [hseg]
    rfl
  · rw [hseg]
    exact Int.ofNat_lt.mpr config.threshold_pos
  · rw [hseg]
    exact Nat.zero_le _

/-- The state a history of fewer than 2^62 vectors reaches. -/
theorem run_roomy (rt : Runtime B ID Vec Dist) (config : IndexConfig) (callback : Bool)
    (draws : Nat) {edits : List (Edit ID Vec)} (hn : (addedRows edits).length < 2 ^ 62) :
    ∃ st, (create rt config callback draws : Index B ID).run rt (edits.map Edit.op) = .ok st ∧
      Shape st.rest ∧ Roomy st (addedRows edits).length := by
  have hrun := run_total_from rt (Shape.create rt config callback draws)
    (Roomy.create rt config callback draws 0) (by rwa [Nat.zero_add] : 0 + _ < 2 ^ 62)
  rwa [Nat.zero_add] at hrun

/-- A history of `add` and `erase` with fewer than 2^62 vectors runs to its end. -/
theorem run_total (rt : Runtime B ID Vec Dist) (config : IndexConfig) (callback : Bool)
    (draws : Nat) {edits : List (Edit ID Vec)} (hn : (addedRows edits).length < 2 ^ 62) :
    ∃ st, (create rt config callback draws : Index B ID).run rt (edits.map Edit.op) = .ok st := by
  obtain ⟨st, hrun, -⟩ := run_roomy rt config callback draws hn
  exact ⟨st, hrun⟩

end Index

end Vecodex
