import Vecodex.Laws.Access
import Vecodex.Laws.Fresh

/-!
# The bound of a level

`SegmentStorage::add` rounds the size of a segment up to a power of two and goes one level down, so
a segment of level `i` has at most 2^(i+1) vectors. A merge moves a segment one level up without
looking at its size again: the two segments of a pair stood in one level, so the bound of the next
level holds for both together. Erases only shrink.

This needs sizes that are what they say. When no id is added twice they are the numbers of live
ids, for any number of vectors (`Index.Tidy`), and a history runs to its end without the bound
of `run_total` on the vectors (`Levelled.run`).
-/

namespace Vecodex

open Lib
open Relation (ReflTransGen)

variable {B ID Vec Dist : Type} [DecidableEq ID]

namespace Index

/-- A segment of level `i` has at most 2^(i+1) live ids. -/
def LevelBound (idx : Index B ID) : Prop :=
  ∀ i p, idx.levels.InRow i p → (idx.seg p).index.liveIds.card ≤ 2 ^ (i + 1)

/-! ## Entering a level -/

/-- The search for a level ends at a power of two that is no smaller than the size. -/
theorem levelLoop_level {size fuel i i' : Nat} {levels levels' : Grid Nat}
    (h : levelLoop size fuel i levels = .ok (i', levels')) :
    size ≤ 2 ^ i' ∧ ∀ k p, Grid.InRow levels' k p → Grid.InRow levels k p := by
  induction fuel generalizing i levels with
  | zero => cases h
  | succ fuel ih =>
    rw [levelLoop] at h
    split at h
    · obtain ⟨hsize, hrows⟩ := ih h
      refine ⟨hsize, fun k p hp => ?_⟩
      have hgrown := hrows k p hp
      split at hgrown
      · exact hgrown.of_grown
      · exact hgrown
    · next hstop =>
      cases h
      exact ⟨by omega, fun k p hp => hp⟩

omit [DecidableEq ID] in
/-- A segment enters a level whose bound it meets. -/
theorem storageAdd_level {idx st : Index B ID} {p : Nat} (h : idx.storageAdd p = .ok st) :
    ∃ i, (idx.seg p).size ≤ 2 ^ (i + 1) ∧
      ∀ k q, st.levels.InRow k q → k = i ∧ q = p ∨ idx.levels.InRow k q := by
  obtain ⟨⟨i, levels⟩, hlevel, hst⟩ := bind_eq_ok.mp h
  cases hst
  obtain ⟨hsize, hrows⟩ := levelLoop_level hlevel
  refine ⟨i - 1, hsize.trans (Nat.pow_le_pow_right (by omega) (by omega)), fun k q hq => ?_⟩
  rcases Grid.inRow_push hq with hnew | hold
  · exact Or.inl hnew
  · exact Or.inr (hrows k q hold)

namespace LevelBound

variable {rt : Runtime B ID Vec Dist} {idx idx' : Index B ID}

theorem create (rt : Runtime B ID Vec Dist) (config : IndexConfig) (callback : Bool)
    (draws : Nat) : LevelBound (create rt config callback draws : Index B ID) := by
  rintro i p ⟨row, hrow, -⟩
  cases hrow

/-- The bound survives when no segment of the levels grows and none moves. -/
theorem shrink (h : LevelBound idx) (hrows : ∀ i p, idx'.levels.InRow i p → idx.levels.InRow i p)
    (hcard : ∀ p ∈ idx.current, (idx'.seg p).index.liveIds.card ≤ (idx.seg p).index.liveIds.card) :
    LevelBound idx' := by
  intro i p hp
  have hold := hrows i p hp
  exact (hcard p hold.mem_items).trans (h i p hold)

theorem append (h : LevelBound idx) (hlast : idx.last ∉ idx.current) (rows : List (ID × Vec)) :
    LevelBound (idx.appendLast rt rows) := by
  refine h.shrink (fun i p hp => hp) fun p hp => ?_
  rw [appendLast_seg, if_neg (ne_of_mem_of_not_mem hp hlast)]

/-- A segment of the threshold's size enters a level whose bound it meets. -/
theorem sealLast (h : LevelBound idx) (hshape : Shape idx.rest)
    (honce : (idx.seg idx.last).index.BoundOnce)
    (hnet : (idx.seg idx.last).index.net = idx.config.segmentThreshold) {st : Index B ID}
    (stored : idx.storageAdd idx.last = .ok st) : LevelBound (st.openNext rt) := by
  have hint := idx.config.threshold_int
  have hwf : (idx.seg idx.last).index.Wf := hshape.wf idx.last
  have hcard := honce.net_eq hwf
  have hsize : (idx.seg idx.last).size = (idx.seg idx.last).index.liveIds.card :=
    honce.size_eq hwf (by omega)
  obtain ⟨i, hlevel, hrows⟩ := storageAdd_level stored
  intro k p hp
  have hseg : p ≠ idx.heap.next → (st.openNext rt).seg p = idx.seg p := by
    intro hne
    rw [openNext_seg stored, if_neg hne]
  rcases hrows k p hp with ⟨rfl, rfl⟩ | hold
  · rw [hseg (Nat.ne_of_lt hshape.last_alloc), ← hsize]
    exact hlevel
  · rw [hseg (Nat.ne_of_lt (hshape.current_alloc p hold.mem_items))]
    exact h k p hold

theorem erase (h : LevelBound idx) (hshape : Shape idx.rest) (ids : List ID) :
    LevelBound (idx.erase ids) := by
  refine h.shrink (fun i p hp => hp) fun p _ => ?_
  rw [erase_seg]
  split
  · exact FaissIndex.card_liveIds_eraseBatch (hshape.wf p) ids
  · exact Nat.le_refl _

/-- A joined segment moves up one level, and both halves stood in the level below. -/
theorem join {used : List ID} {w : Work B ID} (h : LevelBound w.index) (htidy : Tidy used w.index)
    (hshape : Shape w) {j a b : Nat} (left : w.index.levels.cell w.level j = some a)
    (right : w.index.levels.cell w.level (j + 1) = some b) :
    LevelBound (w.index.join rt w.level j a b) := by
  have hnodup : (w.index.join rt w.level j a b).current.Nodup :=
    (List.nodup_cons.mp ((hshape.join_cells rt left right).1.nodup_iff.mp hshape.nodup)).2
  have hself : (w.index.join rt w.level j a b).levels.InRow (w.level + 1) a :=
    Grid.inRow_promote_self left right a
  intro k p hp
  rw [join_seg]
  split
  · next hpa =>
    subst hpa
    obtain rfl : k = w.level + 1 := Grid.InRow.unique hnodup hp hself
    have ha := h w.level p (Grid.inRow_of_cell left)
    have hb := h w.level b (Grid.inRow_of_cell right)
    have hsum := FaissIndex.card_liveIds_merge (hshape.wf p) (hshape.wf b) rt
      (htidy.cells_apart hshape left right)
    show ((w.index.seg p).index.addBatch rt ((w.index.seg b).index.survivors rt)).liveIds.card ≤ _
    rw [hsum, Nat.pow_succ]
    omega
  · next hpa =>
    rcases Grid.inRow_promote hp with ⟨-, heq⟩ | hold
    · exact absurd heq hpa
    · exact h k p hold

theorem mergeStep {used : List ID} {w w' : Work B ID} (h : LevelBound w.index)
    (htidy : Tidy used w.index) (hshape : Shape w) (hstep : MergeStep rt w w') :
    LevelBound w'.index := by
  cases hstep with
  | join j reported left right kinds => exact h.join htidy hshape left right
  | finish =>
    obtain ⟨segments, trace, calls, heq, -, -⟩ := w.index.finishPass_eq w.erased w.inserted
    show LevelBound (w.index.finishPass w.erased w.inserted)
    rw [heq]
    exact h
  | compact idle => exact h.shrink (fun i p hp => hp.of_compact) fun p _ => Nat.le_refl _

end LevelBound

/-! ## Histories -/

/-- What a history of fresh ids keeps; `used` are the ids it has added. -/
structure Levelled (used : List ID) (idx : Index B ID) : Prop where
  shape : Shape idx.rest
  tidy : Tidy used idx
  bound : LevelBound idx

namespace Levelled

variable {rt : Runtime B ID Vec Dist} {used : List ID} {idx : Index B ID}

theorem create (rt : Runtime B ID Vec Dist) (config : IndexConfig) (callback : Bool)
    (draws : Nat) : Levelled [] (create rt config callback draws : Index B ID) :=
  ⟨Shape.create rt config callback draws, Tidy.create rt config callback draws,
    LevelBound.create rt config callback draws⟩

/-- A seal leaves the next open segment empty and the sealed one within the bound of its level. -/
theorem sealLast (h : Levelled used idx)
    (hnet : (idx.seg idx.last).index.net = idx.config.segmentThreshold) {st : Index B ID}
    (stored : idx.storageAdd idx.last = .ok st) : Levelled used (st.openNext rt) := by
  have hshape : Shape { idx.rest with index := st.openNext rt, fresh := idx.rest.fresh ++ _ } :=
    h.shape.sealLast ⟨rfl, rfl⟩ stored
  have honce := h.tidy.once idx.last (mem_owners.mpr (Or.inr rfl))
  refine ⟨?_, h.tidy.sealLast stored, h.bound.sealLast h.shape honce hnet stored⟩
  exact ⟨hshape.wf, hshape.nodup, hshape.current_alloc, hshape.segments_alloc, hshape.last_alloc,
    hshape.last_current, hshape.last_segments, hshape.inserted_current, hshape.inserted_row⟩

/-- The loop of `add` can rely on it, whatever the number of vectors. -/
theorem feeds (rt : Runtime B ID Vec Dist) {ids : List ID} (hnodup : ids.Nodup) :
    Feeds rt fun (idx : Index B ID) (rows : List (ID × Vec)) =>
      ∃ used, used ++ rows.map Prod.fst = ids ∧ Levelled used idx where
  low := by
    intro idx rows ⟨used, _, h⟩
    have hwf : (idx.seg idx.last).index.Wf := h.shape.wf idx.last
    have hnet := (h.tidy.once idx.last (mem_owners.mpr (Or.inr rfl))).net_eq hwf
    omega
  append := by
    intro idx rows n ⟨used, hids, h⟩
    have hsplit : used ++ (rows.take n).map Prod.fst ++ (rows.drop n).map Prod.fst = ids := by
      rw [List.append_assoc, ← List.map_append, List.take_append_drop, hids]
    have hfresh : (used ++ (rows.take n).map Prod.fst).Nodup := by
      rw [← hsplit] at hnodup
      exact (List.nodup_append.mp hnodup).1
    exact ⟨_, hsplit, h.shape.append _, h.tidy.append h.shape.wf hfresh,
      h.bound.append h.shape.last_current _⟩
  sealed := by
    intro idx st rows ⟨used, hids, h⟩ hnet hst
    exact ⟨used, hids, h.sealLast hnet hst⟩
  report := by
    intro idx rows inserted ⟨used, hids, h⟩
    have hshape := h.shape.notify [] inserted []
    obtain ⟨calls, hcalls⟩ := idx.notify_eq [] inserted
    refine ⟨used, hids, hshape, ?_, ?_⟩
    · rw [hcalls]
      exact h.tidy.congr (fun p hp => hp) fun p => rfl
    · rw [hcalls]
      exact h.bound

theorem merge (h : Levelled used idx) {idx' : Index B ID} {amount : Nat}
    (hmerge : idx.merge rt amount = .ok idx') : Levelled used idx' := by
  have hsteps : ∀ w, ReflTransGen (MergeStep rt) idx.rest w →
      Shape w ∧ Tidy used w.index ∧ LevelBound w.index := by
    intro w hw
    induction hw with
    | refl => exact ⟨h.shape, h.tidy, h.bound⟩
    | tail _ hstep ih =>
      obtain ⟨hshape, htidy, hbound⟩ := ih
      exact ⟨hshape.step (.merge hstep), htidy.mergeStep hshape hstep,
        hbound.mergeStep htidy hshape hstep⟩
  obtain ⟨hshape, htidy, hbound⟩ := hsteps _ (merge_steps hmerge)
  exact ⟨hshape, htidy, hbound⟩

theorem add {n : Nat} (h : Levelled used idx) (hroomy : Roomy idx n) {rows : List (ID × Vec)}
    (hfresh : (used ++ rows.map Prod.fst).Nodup) :
    ∃ idx', idx.add rt rows = .ok idx' ∧ Roomy idx' (n + rows.length) ∧
      Levelled (used ++ rows.map Prod.fst) idx' := by
  obtain ⟨filled, hfill, hroom, used', hids, hfilled⟩ :=
    fill_feeds (feeds rt hfresh) hroomy ⟨used, rfl, h⟩
  rw [List.map_nil, List.append_nil] at hids
  subst hids
  obtain ⟨merged, hmerge, hroom'⟩ := merge_total rt hfilled.shape hroom 200
  unfold Index.add
  rw [hfill, ok_bind]
  split
  · exact ⟨merged, hmerge, hroom', hfilled.merge hmerge⟩
  · exact ⟨filled, rfl, hroom, hfilled⟩

theorem erase (h : Levelled used idx) (ids : List ID) : Levelled used (idx.erase ids) :=
  ⟨h.shape.erase ids, h.tidy.erase ids, h.bound.erase h.shape ids⟩

/-- A history of fresh ids runs to its end. -/
theorem run {n : Nat} (h : Levelled used idx) (hroomy : Roomy idx n)
    {edits : List (Edit ID Vec)} (hfresh : (used ++ (addedRows edits).map Prod.fst).Nodup) :
    ∃ st, idx.run rt (edits.map Edit.op) = .ok st ∧
      Levelled (used ++ (addedRows edits).map Prod.fst) st := by
  induction edits generalizing idx used n with
  | nil =>
    refine ⟨idx, rfl, ?_⟩
    rw [show addedRows ([] : List (Edit ID Vec)) = [] from rfl, List.map_nil, List.append_nil]
    exact h
  | cons e edits ih =>
    rw [List.map_cons, Index.run, List.foldlM_cons]
    cases e with
    | add rows =>
      have hrows : addedRows (Edit.add rows :: edits) = rows ++ addedRows edits := rfl
      rw [hrows, List.map_append, ← List.append_assoc] at hfresh ⊢
      obtain ⟨next, hnext, hroom, hlevelled⟩ := h.add hroomy (List.nodup_append.mp hfresh).1
      rw [show exec rt idx (Edit.op (Edit.add rows)) = .ok next from hnext, ok_bind]
      exact ih hlevelled hroom hfresh
    | erase ids => exact ih (h.erase ids) (hroomy.erase ids) hfresh

end Levelled

end Index

/-- In every history that adds no id twice, the accesses to the levels stay in range, and after it a
segment of level `i` has at most 2^(i+1) vectors. -/
theorem level_bound (rt : Runtime B ID Vec Dist) (config : IndexConfig) (callback : Bool)
    (draws : Nat) (edits : List (Edit ID Vec))
    (hfresh : ((addedRows edits).map Prod.fst).Nodup) :
    (∃ st, (Index.create rt config callback draws : Index B ID).run rt (edits.map Edit.op) =
        .ok st ∧
      ∀ i p, st.levels.InRow i p → (st.seg p).size ≤ 2 ^ (i + 1)) ∧
      (∀ (idx : Index B ID) (p : Nat), idx.storageAddChecked p = idx.storageAdd p ∧
        idx.storageAddChecked p ≠ .error .outOfRange) ∧
      ∀ (idx : Index B ID) (amount : Nat), idx.mergeChecked rt amount = idx.merge rt amount ∧
        idx.mergeChecked rt amount ≠ .error .outOfRange := by
  refine ⟨?_, Index.storageAdd_in_range, Index.merge_in_range rt⟩
  obtain ⟨st, hrun, hlevelled⟩ := (Index.Levelled.create rt config callback draws).run
    (Index.Roomy.create rt config callback draws 0) (by rwa [List.nil_append])
  refine ⟨st, hrun, fun i p hp => ?_⟩
  have howner : p ∈ st.owners := Index.mem_owners.mpr (Or.inl hp.mem_items)
  exact ((hlevelled.tidy.once p howner).size_le (hlevelled.shape.wf p)).trans
    (hlevelled.bound i p hp)

theorem level_bound_merged :
    ∃ st, (Index.create (lineRuntime Nat id) (unitConfig true) false 0).run (lineRuntime Nat id)
        ([.add [(1, 10), (2, 20), (3, 30)], .erase [2], .add [(4, 40)]].map Edit.op) = .ok st ∧
      ∀ i p, st.levels.InRow i p → (st.seg p).size ≤ 2 ^ (i + 1) :=
  (level_bound (lineRuntime Nat id) (unitConfig true) false 0
    [.add [(1, 10), (2, 20), (3, 30)], .erase [2], .add [(4, 40)]] (by decide)).1

end Vecodex
