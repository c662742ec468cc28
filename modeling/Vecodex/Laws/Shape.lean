import Vecodex.Laws.Steps

/-!
# Pointers

What holds of the pointers of an index whatever `rand()` returns and whatever is pushed: the
levels hold distinct allocated segments, the open segment is none of them, and the segments a
pass of a merge has promoted are in the levels and no longer in the row of the pass. `Shape` is
kept by every step (`Shape.step`), so it holds after every history (`Shape.of_runs`).

The first part of the module is the interface of the operations: the equations for the segment
behind a pointer, and the fields an operation leaves alone.
-/

namespace Vecodex

open Lib

variable {B ID Vec Dist : Type}

namespace Index

/-! ## What the operations leave alone -/

/-- The segments a search visits. -/
def visited (idx : Index B ID) : List Nat := idx.segments ++ [idx.last]

/-- The segments of the levels. -/
def current (idx : Index B ID) : List Nat := idx.levels.items

theorem mem_visited {idx : Index B ID} {p : Nat} :
    p ∈ idx.visited ↔ p ∈ idx.segments ∨ p = idx.last := by
  simp [visited]

theorem mem_current_of_cell {idx : Index B ID} {i j p : Nat} (h : idx.levels.cell i j = some p) :
    p ∈ idx.current := by
  obtain ⟨row, hrow, hp⟩ := Grid.cell_eq_some.mp h
  exact Grid.mem_items.mpr ⟨row, List.mem_of_getElem? hrow, List.mem_of_getElem? hp⟩

theorem current_compactLevels (idx : Index B ID) : idx.compactLevels.current = idx.current :=
  Grid.items_compact _

/-- A callback changes nothing but the log of calls. -/
theorem notify_eq (idx : Index B ID) (erased inserted : List Nat) :
    ∃ calls, idx.notify erased inserted = { idx with calls := calls } := by
  unfold notify
  split
  · exact ⟨_, rfl⟩
  · exact ⟨idx.calls, rfl⟩

/-- A retired id is not found, or the first reference to a segment that carries it goes. -/
theorem dropId_cases (idx : Index B ID) (id : Nat) :
    (∀ p ∈ idx.segments, idx.idOf p ≠ id) ∧ idx.dropId id = idx ∨
      ∃ p left, idx.idOf p = id ∧ idx.segments.Perm (p :: left) ∧ left.Sublist idx.segments ∧
        idx.dropId id = { idx with
          segments := left
          trace := idx.trace ++ [.dropped p left idx.current] } := by
  unfold dropId
  split
  · next hnone =>
    left
    refine ⟨fun p hp => ?_, rfl⟩
    simpa using List.find?_eq_none.mp hnone p hp
  · next p hsome =>
    right
    obtain ⟨hp, before, after, hsplit, hbefore⟩ := List.find?_eq_some_iff_append.mp hsome
    have herase : idx.segments.eraseP (fun p => idx.idOf p = id) = before ++ after := by
      rw [hsplit, List.eraseP_append_right _ (fun q hq => by simpa using hbefore q hq),
        List.eraseP_cons, hp]
      rfl
    refine ⟨p, before ++ after, of_decide_eq_true hp, ?_, ?_, ?_⟩
    · rw [hsplit]
      exact List.perm_middle
    · rw [← herase]
      exact List.eraseP_sublist
    · rw [herase]
      rfl

/-- Dropping retired ids removes references from `segments` and nothing else. -/
theorem foldl_dropId_eq (idx : Index B ID) (ids : List Nat) :
    ∃ segments trace, ids.foldl dropId idx = { idx with segments := segments, trace := trace } ∧
      segments.Sublist idx.segments ∧ idx.trace <+: trace := by
  induction ids generalizing idx with
  | nil => exact ⟨idx.segments, idx.trace, rfl, List.Sublist.refl _, List.prefix_refl _⟩
  | cons id ids ih =>
    obtain ⟨segments, trace, heq, hsub, hpre⟩ := ih (idx.dropId id)
    rw [List.foldl_cons, heq]
    rcases idx.dropId_cases id with ⟨-, hsame⟩ | ⟨p, left, -, -, hleft, hdrop⟩
    · rw [hsame] at hsub hpre ⊢
      exact ⟨segments, trace, rfl, hsub, hpre⟩
    · rw [hdrop] at hsub hpre ⊢
      exact ⟨segments, trace, rfl, hsub.trans hleft, (List.prefix_append _ _).trans hpre⟩

/-- The end of a pass changes the list of segments, the log of calls and the trace. -/
theorem finishPass_eq (idx : Index B ID) (erased inserted : List Nat) :
    ∃ segments trace calls, idx.finishPass erased inserted =
        { idx with segments := segments, trace := trace, calls := calls } ∧
      segments.Sublist (idx.segments ++ inserted) ∧ idx.trace <+: trace := by
  obtain ⟨segments, trace, heq, hsub, hpre⟩ :=
    foldl_dropId_eq { idx with segments := idx.segments ++ inserted } erased
  unfold finishPass
  dsimp only
  rw [heq]
  split
  · obtain ⟨calls, hcalls⟩ := notify_eq
      { idx with segments := segments, trace := trace } erased inserted
    exact ⟨segments, trace, calls, hcalls, hsub, hpre⟩
  · exact ⟨segments, trace, idx.calls, rfl, hsub, hpre⟩

/-- The lookups of a pass decide what remains of the list. -/
theorem finishPass_drops (idx : Index B ID) (erased inserted : List Nat) :
    (idx.finishPass erased inserted).segments =
        (erased.foldl dropId { idx with segments := idx.segments ++ inserted }).segments ∧
      (idx.finishPass erased inserted).trace =
        (erased.foldl dropId { idx with segments := idx.segments ++ inserted }).trace := by
  unfold finishPass
  dsimp only
  split
  · obtain ⟨calls, hcalls⟩ := notify_eq
      (erased.foldl dropId { idx with segments := idx.segments ++ inserted }) erased inserted
    rw [hcalls]
    exact ⟨rfl, rfl⟩
  · exact ⟨rfl, rfl⟩

/-- The search for a level grows the levels by empty rows and ends inside them. -/
theorem levelLoop_eq_ok {size fuel i i' : Nat} {levels levels' : Grid Nat}
    (h : levelLoop size fuel i levels = .ok (i', levels')) (hi : i ≤ levels.length) :
    levels'.items = levels.items ∧ i' ≤ levels'.length := by
  induction fuel generalizing i levels with
  | zero => cases h
  | succ fuel ih =>
    rw [levelLoop] at h
    split at h
    · have hgrow : (if i = levels.length then levels ++ [[]] else levels).items = levels.items ∧
          i + 1 ≤ (if i = levels.length then levels ++ [[]] else levels).length := by
        split
        · next heq =>
          rw [Grid.items_append, List.length_append]
          exact ⟨List.append_nil _, by rw [heq]; rfl⟩
        · next hne => exact ⟨rfl, by omega⟩
      obtain ⟨hitems, hle⟩ := ih h hgrow.2
      exact ⟨hitems.trans hgrow.1, hle⟩
    · cases h
      exact ⟨rfl, hi⟩

/-- `SegmentStorage::add` puts the segment into the levels. -/
theorem storageAdd_eq_ok {idx idx' : Index B ID} {p : Nat} (h : idx.storageAdd p = .ok idx') :
    ∃ levels, (Grid.items levels).Perm (p :: idx.current) ∧
      idx' = { idx with counter := sizeT (idx.counter + 1), levels := levels } := by
  obtain ⟨⟨i, levels⟩, hlevel, hidx⟩ := bind_eq_ok.mp h
  obtain ⟨hitems, hle⟩ := levelLoop_eq_ok hlevel (Nat.zero_le _)
  cases hidx
  have hpush := Grid.items_push (g := levels) (i := i - 1) (by omega) p
  rw [hitems] at hpush
  exact ⟨_, hpush, rfl⟩

/-- A segment fails to enter the levels only by the shift. -/
theorem levelLoop_eq_error {size fuel i : Nat} {levels : Grid Nat} {e : Fault}
    (h : levelLoop size fuel i levels = .error e) : e = .badShift := by
  induction fuel generalizing i levels with
  | zero => exact (Except.error.inj h).symm
  | succ fuel ih =>
    rw [levelLoop] at h
    split at h
    · exact ih h
    · cases h

theorem storageAdd_eq_error {idx : Index B ID} {p : Nat} {e : Fault}
    (h : idx.storageAdd p = .error e) : e = .badShift := by
  rcases bind_eq_error.mp h with hlevel | ⟨r, -, hret⟩
  · exact levelLoop_eq_error hlevel
  · cases hret

theorem pushSegment_eq_error {idx : Index B ID} {segment : Segment B ID} {e : Fault}
    (h : idx.pushSegment segment = .error e) : e = .badShift := by
  rcases bind_eq_error.mp h with hstore | ⟨st, -, hret⟩
  · exact storageAdd_eq_error hstore
  · cases hret

/-- `pushSegment` puts the segment into both lists and reports it under its own id. -/
theorem pushSegment_eq_ok {idx idx' : Index B ID} {segment : Segment B ID}
    (h : idx.pushSegment segment = .ok idx') :
    ∃ levels, (Grid.items levels).Perm (idx.heap.next :: idx.current) ∧
      idx' = { idx with
        heap := idx.heap.alloc segment
        counter := sizeT (idx.counter + 1)
        levels := levels
        segments := idx.segments ++ [idx.heap.next]
        calls := if idx.callback then idx.calls ++ [⟨[], [idx.heap.next], [segment.segId]⟩]
          else idx.calls } := by
  obtain ⟨st, hst, hidx⟩ := bind_eq_ok.mp h
  obtain ⟨levels, hperm, rfl⟩ := storageAdd_eq_ok hst
  cases hidx
  refine ⟨levels, hperm, ?_⟩
  unfold notify
  cases hcall : idx.callback with
  | true => simp [idOf, seg]
  | false => simp

/-! ## The segment behind a pointer -/

theorem create_seg (rt : Runtime B ID Vec Dist) (config : IndexConfig) (callback : Bool)
    (draws p : Nat) : (create rt config callback draws : Index B ID).seg p =
      freshSegment rt config draws := by
  unfold create seg
  by_cases hp : p = 0
  · subst hp
    exact Heap.alloc_get_next _ _
  · exact Heap.alloc_get_of_ne _ hp

theorem alloc_seg (idx : Index B ID) (segment : Segment B ID) (p : Nat) :
    (idx.heap.alloc segment).get p = if p = idx.heap.next then segment else idx.seg p := by
  split
  · next h =>
    subst h
    exact Heap.alloc_get_next _ _
  · next h => exact Heap.alloc_get_of_ne _ h

/-- Sealing: the old open segment joins the levels, an empty one takes its place, and a search
visits one segment more. -/
theorem openNext_seg {rt : Runtime B ID Vec Dist} {idx st : Index B ID}
    (stored : idx.storageAdd idx.last = .ok st) (p : Nat) :
    (st.openNext rt).seg p =
      if p = idx.heap.next then freshSegment rt idx.config idx.draws else idx.seg p := by
  obtain ⟨levels, -, rfl⟩ := storageAdd_eq_ok stored
  exact alloc_seg idx _ p

theorem mem_openNext_visited {rt : Runtime B ID Vec Dist} {idx st : Index B ID}
    (stored : idx.storageAdd idx.last = .ok st) {p : Nat} :
    p ∈ (st.openNext rt).visited ↔ p ∈ idx.visited ∨ p = idx.heap.next := by
  obtain ⟨levels, -, rfl⟩ := storageAdd_eq_ok stored
  unfold visited openNext
  rw [List.mem_append, List.mem_singleton]

theorem mem_openNext_current {rt : Runtime B ID Vec Dist} {idx st : Index B ID}
    (stored : idx.storageAdd idx.last = .ok st) {p : Nat} :
    p ∈ (st.openNext rt).current ↔ p ∈ idx.current ∨ p = idx.last := by
  obtain ⟨levels, hperm, rfl⟩ := storageAdd_eq_ok stored
  unfold current openNext
  rw [hperm.mem_iff, List.mem_cons, or_comm]
  rfl

theorem openNext_last {rt : Runtime B ID Vec Dist} {idx st : Index B ID}
    (stored : idx.storageAdd idx.last = .ok st) : (st.openNext rt).last = idx.heap.next := by
  obtain ⟨levels, -, rfl⟩ := storageAdd_eq_ok stored
  rfl

/-- Distinct ids stay distinct when one segment, or one more, takes an id that none has. -/
theorem idOf_inj_of_renamed {idx idx' : Index B ID} {a id : Nat}
    (hinj : ∀ p q, idx.heap.Alloc p → idx.heap.Alloc q → idx.idOf p = idx.idOf q → p = q)
    (hnew : ∀ p, idx.heap.Alloc p → id ≠ idx.idOf p)
    (hid : ∀ p, idx'.idOf p = if p = a then id else idx.idOf p)
    (halloc : ∀ p, idx'.heap.Alloc p → idx.heap.Alloc p ∨ p = a) (p q : Nat)
    (hp : idx'.heap.Alloc p) (hq : idx'.heap.Alloc q) (heq : idx'.idOf p = idx'.idOf q) :
    p = q := by
  rw [hid, hid] at heq
  by_cases hpa : p = a
  · by_cases hqa : q = a
    · exact hpa.trans hqa.symm
    · rw [if_pos hpa, if_neg hqa] at heq
      exact absurd heq (hnew q ((halloc q hq).resolve_right hqa))
  · have hp := (halloc p hp).resolve_right hpa
    by_cases hqa : q = a
    · rw [if_neg hpa, if_pos hqa] at heq
      exact absurd heq.symm (hnew p hp)
    · rw [if_neg hpa, if_neg hqa] at heq
      exact hinj p q hp ((halloc q hq).resolve_right hqa) heq

/-- A pushed segment joins the levels, and a search visits it. -/
theorem pushSegment_seg {idx st : Index B ID} {segment : Segment B ID}
    (stored : idx.pushSegment segment = .ok st) (p : Nat) :
    st.seg p = if p = idx.heap.next then segment else idx.seg p := by
  obtain ⟨levels, -, rfl⟩ := pushSegment_eq_ok stored
  exact alloc_seg idx segment p

theorem mem_pushSegment_visited {idx st : Index B ID} {segment : Segment B ID}
    (stored : idx.pushSegment segment = .ok st) {p : Nat} :
    p ∈ st.visited ↔ p ∈ idx.visited ∨ p = idx.heap.next := by
  obtain ⟨levels, -, rfl⟩ := pushSegment_eq_ok stored
  rw [mem_visited, mem_visited, List.mem_append, List.mem_singleton, or_right_comm]

theorem mem_pushSegment_current {idx st : Index B ID} {segment : Segment B ID}
    (stored : idx.pushSegment segment = .ok st) {p : Nat} :
    p ∈ st.current ↔ p ∈ idx.current ∨ p = idx.heap.next := by
  obtain ⟨levels, hperm, rfl⟩ := pushSegment_eq_ok stored
  unfold current
  rw [hperm.mem_iff, List.mem_cons, or_comm]
  rfl

variable [DecidableEq ID]

theorem appendLast_seg (rt : Runtime B ID Vec Dist) (idx : Index B ID) (rows : List (ID × Vec))
    (p : Nat) : (idx.appendLast rt rows).seg p =
      if p = idx.last then (idx.seg p).addVectorBatch rt rows else idx.seg p := by
  unfold appendLast seg
  dsimp only
  split
  · next h =>
    subst h
    exact Heap.modify_get_self _ _ _
  · next h => exact Heap.modify_get_of_ne _ h

theorem join_seg (rt : Runtime B ID Vec Dist) (idx : Index B ID) (i j a b p : Nat) :
    (idx.join rt i j a b).seg p =
      if p = a then
        { segId := rt.rand idx.draws
          index := (idx.seg a).index.addBatch rt ((idx.seg b).index.survivors rt) }
      else idx.seg p := by
  split
  · next h =>
    subst h
    exact Heap.set_get_self _ _ _
  · next h => exact Heap.set_get_of_ne _ h

theorem deleteBatch_deleteBatch (s : Segment B ID) (ids : List ID) :
    (s.deleteBatch ids).deleteBatch ids = s.deleteBatch ids := by
  unfold Segment.deleteBatch
  rw [FaissIndex.eraseBatch_eraseBatch]

/-- An erase reaches the visited segments, each as if once. -/
theorem erase_seg (idx : Index B ID) (ids : List ID) (p : Nat) :
    (idx.erase ids).seg p =
      if p ∈ idx.visited then (idx.seg p).deleteBatch ids else idx.seg p := by
  have hone : ∀ (h : Heap (Segment B ID)) (q : Nat),
      (h.modify q fun s => s.deleteBatch ids).get p =
        if p = q then (h.get p).deleteBatch ids else h.get p := by
    intro h q
    split
    · next heq =>
      subst heq
      exact Heap.modify_get_self _ _ _
    · next hne => exact Heap.modify_get_of_ne _ hne
  have hall : ∀ (ps : List Nat) (h : Heap (Segment B ID)),
      (ps.foldl (fun heap q => heap.modify q fun s => s.deleteBatch ids) h).get p =
        if p ∈ ps then (h.get p).deleteBatch ids else h.get p := by
    intro ps
    induction ps with
    | nil =>
      intro h
      rfl
    | cons q ps ih =>
      intro h
      rw [List.foldl_cons, ih, hone]
      by_cases hq : p = q
      · subst hq
        simp [deleteBatch_deleteBatch]
      · simp [hq]
  unfold erase seg
  rw [hone, hall]
  by_cases hl : p = idx.last
  · by_cases hs : p ∈ idx.segments
    · simp [visited, hl.symm, hs, deleteBatch_deleteBatch]
    · simp [visited, hl.symm, hs]
  · simp [visited, hl]

/-! ## The id of a segment -/

theorem appendLast_idOf (rt : Runtime B ID Vec Dist) (idx : Index B ID) (rows : List (ID × Vec))
    (p : Nat) : (idx.appendLast rt rows).idOf p = idx.idOf p := by
  unfold idOf
  rw [appendLast_seg]
  split <;> rfl

theorem erase_idOf (idx : Index B ID) (ids : List ID) (p : Nat) :
    (idx.erase ids).idOf p = idx.idOf p := by
  unfold idOf
  rw [erase_seg]
  split <;> rfl

theorem join_idOf (rt : Runtime B ID Vec Dist) (idx : Index B ID) (i j a b p : Nat) :
    (idx.join rt i j a b).idOf p = if p = a then rt.rand idx.draws else idx.idOf p := by
  unfold idOf
  rw [join_seg]
  split <;> rfl

theorem erase_next (idx : Index B ID) (ids : List ID) :
    (idx.erase ids).heap.next = idx.heap.next := by
  have hall : ∀ (ps : List Nat) (heap : Heap (Segment B ID)),
      (ps.foldl (fun heap q => heap.modify q fun s => s.deleteBatch ids) heap).next =
        heap.next := by
    intro ps
    induction ps with
    | nil => exact fun _ => rfl
    | cons q ps ih => exact fun heap => ih _
  exact hall idx.segments idx.heap

end Index

/-! ## The invariant -/

variable [DecidableEq ID]

/-- What holds of the pointers of an index. -/
structure Shape (w : Work B ID) : Prop where
  wf : ∀ p, (w.index.seg p).index.Wf
  nodup : w.index.current.Nodup
  current_alloc : ∀ p ∈ w.index.current, w.index.heap.Alloc p
  segments_alloc : ∀ p ∈ w.index.segments, w.index.heap.Alloc p
  last_alloc : w.index.heap.Alloc w.index.last
  last_current : w.index.last ∉ w.index.current
  last_segments : w.index.last ∉ w.index.segments
  inserted_current : ∀ p ∈ w.inserted, p ∈ w.index.current
  inserted_row : ∀ p ∈ w.inserted, ∀ j, w.index.levels.cell w.level j ≠ some p

namespace Shape

variable {rt : Runtime B ID Vec Dist} {w : Work B ID}

theorem create (rt : Runtime B ID Vec Dist) (config : IndexConfig) (callback : Bool)
    (draws : Nat) : Shape (Index.create rt config callback draws : Index B ID).rest where
  wf p := by
    show ((Index.create rt config callback draws).seg p).index.Wf
    rw [Index.create_seg]
    exact FaissIndex.wf_create rt config.kind
  nodup := List.nodup_nil
  current_alloc p hp := by cases hp
  segments_alloc p hp := by cases hp
  last_alloc := Nat.zero_lt_one
  last_current := List.not_mem_nil
  last_segments := List.not_mem_nil
  inserted_current p hp := by cases hp
  inserted_row p hp := by cases hp

theorem visited_alloc (h : Shape w) {p : Nat} (hp : p ∈ w.index.visited) :
    w.index.heap.Alloc p := by
  rcases Index.mem_visited.mp hp with hp | rfl
  · exact h.segments_alloc p hp
  · exact h.last_alloc

theorem owner_alloc (h : Shape w) {p : Nat} (hp : p ∈ w.index.current ∨ p = w.index.last) :
    w.index.heap.Alloc p := by
  rcases hp with hp | rfl
  · exact h.current_alloc p hp
  · exact h.last_alloc

/-- The absorbed neighbour is the one segment that leaves the levels. -/
theorem join_cells (h : Shape w) (rt : Runtime B ID Vec Dist) {j a b : Nat}
    (left : w.index.levels.cell w.level j = some a)
    (right : w.index.levels.cell w.level (j + 1) = some b) :
    w.index.current.Perm (b :: (w.index.join rt w.level j a b).current) ∧ a ≠ b ∧
      a ∈ (w.index.join rt w.level j a b).current ∧ a ∉ w.inserted ∧ b ∉ w.inserted := by
  have hperm : w.index.current.Perm (b :: (w.index.join rt w.level j a b).current) :=
    Grid.items_promote left right
  have hne : a ≠ b := by
    rintro rfl
    have := Grid.cell_inj h.nodup left right
    omega
  refine ⟨hperm, hne, ?_, fun ha => h.inserted_row a ha j left,
    fun hb => h.inserted_row b hb (j + 1) right⟩
  exact (List.mem_cons.mp (hperm.mem_iff.mp (Index.mem_current_of_cell left))).resolve_left hne

theorem mem_join_current (h : Shape w) (rt : Runtime B ID Vec Dist) {j a b : Nat}
    (left : w.index.levels.cell w.level j = some a)
    (right : w.index.levels.cell w.level (j + 1) = some b) {p : Nat} :
    p ∈ (w.index.join rt w.level j a b).current ↔ p ∈ w.index.current ∧ p ≠ b := by
  obtain ⟨hperm, -, -, -⟩ := h.join_cells rt left right
  have hnodup := List.nodup_cons.mp (hperm.nodup_iff.mp h.nodup)
  rw [hperm.mem_iff, List.mem_cons]
  constructor
  · exact fun hp => ⟨Or.inr hp, ne_of_mem_of_not_mem hp hnodup.1⟩
  · exact fun hp => hp.1.resolve_left hp.2

theorem append (h : Shape w) (rows : List (ID × Vec)) :
    Shape { w with index := w.index.appendLast rt rows } where
  wf p := by
    show ((w.index.appendLast rt rows).seg p).index.Wf
    rw [Index.appendLast_seg]
    split
    · exact (h.wf p).addBatch rt rows
    · exact h.wf p
  nodup := h.nodup
  current_alloc := h.current_alloc
  segments_alloc := h.segments_alloc
  last_alloc := h.last_alloc
  last_current := h.last_current
  last_segments := h.last_segments
  inserted_current := h.inserted_current
  inserted_row := h.inserted_row

theorem sealLast (h : Shape w) (idle : w.Idle) {idx : Index B ID}
    (stored : w.index.storageAdd w.index.last = .ok idx) :
    Shape { w with index := idx.openNext rt, fresh := w.fresh ++ [w.index.last] } := by
  obtain ⟨levels, hperm, rfl⟩ := Index.storageAdd_eq_ok stored
  have hnew : ∀ p, w.index.heap.Alloc p → p < w.index.heap.next + 1 := fun p hp =>
    Nat.lt_succ_of_lt hp
  have hcur : ∀ p ∈ Grid.items levels, w.index.heap.Alloc p := by
    intro p hp
    rcases List.mem_cons.mp (hperm.mem_iff.mp hp) with rfl | hp
    · exact h.last_alloc
    · exact h.current_alloc p hp
  have hseg : ∀ p ∈ w.index.segments ++ [w.index.last], w.index.heap.Alloc p := by
    intro p hp
    rcases List.mem_append.mp hp with hp | hp
    · exact h.segments_alloc p hp
    · rw [List.mem_singleton.mp hp]
      exact h.last_alloc
  constructor
  · intro p
    show ((w.index.heap.alloc _).get p).index.Wf
    rw [Index.alloc_seg]
    split
    · exact FaissIndex.wf_create rt _
    · exact h.wf p
  · exact hperm.nodup_iff.mpr (List.nodup_cons.mpr ⟨h.last_current, h.nodup⟩)
  · exact fun p hp => hnew p (hcur p hp)
  · exact fun p hp => hnew p (hseg p hp)
  · exact Nat.lt_succ_self _
  · exact fun hp => Nat.lt_irrefl _ (hcur _ hp)
  · exact fun hp => Nat.lt_irrefl _ (hseg _ hp)
  · intro p hp
    rw [show w.inserted = [] from idle.2] at hp
    cases hp
  · intro p hp
    rw [show w.inserted = [] from idle.2] at hp
    cases hp

theorem notify (h : Shape w) (erased inserted fresh : List Nat) :
    Shape { w with index := w.index.notify erased inserted, fresh := fresh } := by
  obtain ⟨calls, hcalls⟩ := w.index.notify_eq erased inserted
  rw [hcalls]
  exact ⟨h.wf, h.nodup, h.current_alloc, h.segments_alloc, h.last_alloc, h.last_current,
    h.last_segments, h.inserted_current, h.inserted_row⟩

theorem join (h : Shape w) {j a b : Nat} (left : w.index.levels.cell w.level j = some a)
    (right : w.index.levels.cell w.level (j + 1) = some b) :
    Shape { w with
      index := w.index.join rt w.level j a b
      erased := w.erased ++ [w.index.idOf b, w.index.idOf a]
      inserted := w.inserted ++ [a] } := by
  obtain ⟨hperm, hne, ha, hia, hib⟩ := h.join_cells rt left right
  have hsub : ∀ p ∈ (w.index.join rt w.level j a b).current, p ∈ w.index.current := fun p hp =>
    hperm.mem_iff.mpr (List.mem_cons_of_mem _ hp)
  constructor
  · intro p
    show ((w.index.join rt w.level j a b).seg p).index.Wf
    rw [Index.join_seg]
    split
    · exact (h.wf a).addBatch rt _
    · exact h.wf p
  · exact (List.nodup_cons.mp (hperm.nodup_iff.mp h.nodup)).2
  · exact fun p hp => h.current_alloc p (hsub p hp)
  · exact h.segments_alloc
  · exact h.last_alloc
  · exact fun hp => h.last_current (hsub _ hp)
  · exact h.last_segments
  · intro p hp
    rcases List.mem_append.mp hp with hp | hp
    · have hpb : p ≠ b := fun he => hib (he ▸ hp)
      exact (List.mem_cons.mp (hperm.mem_iff.mp (h.inserted_current p hp))).resolve_left hpb
    · rw [List.mem_singleton.mp hp]
      exact ha
  · intro p hp j' hcell
    obtain ⟨hold, hj⟩ := Grid.cell_of_cell_promote hcell
    rcases List.mem_append.mp hp with hp | hp
    · exact h.inserted_row p hp j' hold
    · rw [List.mem_singleton.mp hp] at hold
      exact hj (Grid.cell_inj h.nodup hold left)

/-- A pass adds references to segments of the levels only. -/
theorem visited_finishPass (h : Shape w) {p : Nat}
    (hp : p ∈ (w.index.finishPass w.erased w.inserted).visited) :
    p ∈ w.index.visited ∨ p ∈ w.index.current := by
  obtain ⟨segments, trace, calls, heq, hsub, -⟩ := w.index.finishPass_eq w.erased w.inserted
  rw [heq] at hp
  rcases Index.mem_visited.mp hp with hp | hp
  · rcases List.mem_append.mp (hsub.subset hp) with hp | hp
    · exact Or.inl (Index.mem_visited.mpr (Or.inl hp))
    · exact Or.inr (h.inserted_current p hp)
  · exact Or.inl (Index.mem_visited.mpr (Or.inr hp))

theorem finish (h : Shape w) :
    Shape { w with
      index := w.index.finishPass w.erased w.inserted
      level := w.level + 1
      erased := []
      inserted := [] } := by
  obtain ⟨segments, trace, calls, heq, hsub, -⟩ := w.index.finishPass_eq w.erased w.inserted
  have hmem : ∀ p ∈ segments, p ∈ w.index.segments ∨ p ∈ w.inserted := fun p hp =>
    List.mem_append.mp (hsub.subset hp)
  rw [heq]
  constructor
  · exact h.wf
  · exact h.nodup
  · exact h.current_alloc
  · intro p hp
    rcases hmem p hp with hp | hp
    · exact h.segments_alloc p hp
    · exact h.current_alloc p (h.inserted_current p hp)
  · exact h.last_alloc
  · exact h.last_current
  · intro hp
    rcases hmem _ hp with hp | hp
    · exact h.last_segments hp
    · exact h.last_current (h.inserted_current _ hp)
  · intro p hp
    cases hp
  · intro p hp
    cases hp

theorem compact (h : Shape w) (idle : w.Idle) :
    Shape { w with index := w.index.compactLevels, level := 0 } := by
  have hsame : w.index.compactLevels.current = w.index.current := w.index.current_compactLevels
  constructor
  · exact h.wf
  · exact hsame ▸ h.nodup
  · exact hsame ▸ h.current_alloc
  · exact h.segments_alloc
  · exact h.last_alloc
  · exact hsame ▸ h.last_current
  · exact h.last_segments
  · intro p hp
    rw [show w.inserted = [] from idle.2] at hp
    cases hp
  · intro p hp
    rw [show w.inserted = [] from idle.2] at hp
    cases hp

theorem elsewhere (h : Shape w) (n : Nat) : Shape { w with index := w.index.elsewhere n } :=
  ⟨h.wf, h.nodup, h.current_alloc, h.segments_alloc, h.last_alloc, h.last_current,
    h.last_segments, h.inserted_current, h.inserted_row⟩

/-- The shape does not depend on how many values of `rand()` were drawn. -/
theorem drawn {idx : Index B ID} (h : Shape idx.rest) (draws : Nat) :
    Shape ({ idx with draws := draws } : Index B ID).rest :=
  ⟨h.wf, h.nodup, h.current_alloc, h.segments_alloc, h.last_alloc, h.last_current,
    h.last_segments, h.inserted_current, h.inserted_row⟩

theorem erase (h : Shape w) (ids : List ID) : Shape { w with index := w.index.erase ids } := by
  have halloc : ∀ p, w.index.heap.Alloc p → (w.index.erase ids).heap.Alloc p := by
    intro p hp
    unfold Heap.Alloc at *
    rwa [Index.erase_next]
  constructor
  · intro p
    show ((w.index.erase ids).seg p).index.Wf
    rw [Index.erase_seg]
    split
    · exact (h.wf p).eraseBatch ids
    · exact h.wf p
  · exact h.nodup
  · exact fun p hp => halloc p (h.current_alloc p hp)
  · exact fun p hp => halloc p (h.segments_alloc p hp)
  · exact halloc _ h.last_alloc
  · exact h.last_current
  · exact h.last_segments
  · exact h.inserted_current
  · exact h.inserted_row

theorem push (h : Shape w) {segment : Segment B ID} (wf : segment.index.Wf) (idle : w.Idle)
    {idx : Index B ID} (stored : w.index.pushSegment segment = .ok idx) :
    Shape { w with index := idx } := by
  obtain ⟨levels, hperm, rfl⟩ := Index.pushSegment_eq_ok stored
  have hfresh : w.index.heap.next ∉ w.index.current := fun hp =>
    Nat.lt_irrefl _ (h.current_alloc _ hp)
  have hcur : ∀ p ∈ Grid.items levels, p < w.index.heap.next + 1 := by
    intro p hp
    rcases List.mem_cons.mp (hperm.mem_iff.mp hp) with rfl | hp
    · exact Nat.lt_succ_self _
    · exact Nat.lt_succ_of_lt (h.current_alloc p hp)
  constructor
  · intro p
    show ((w.index.heap.alloc segment).get p).index.Wf
    rw [Index.alloc_seg]
    split
    · exact wf
    · exact h.wf p
  · exact hperm.nodup_iff.mpr (List.nodup_cons.mpr ⟨hfresh, h.nodup⟩)
  · exact hcur
  · intro p hp
    rcases List.mem_append.mp hp with hp | hp
    · exact Nat.lt_succ_of_lt (h.segments_alloc p hp)
    · rw [List.mem_singleton.mp hp]
      exact Nat.lt_succ_self _
  · exact Nat.lt_succ_of_lt h.last_alloc
  · intro hp
    rcases List.mem_cons.mp (hperm.mem_iff.mp hp) with heq | hp
    · exact Nat.lt_irrefl _ (heq ▸ h.last_alloc)
    · exact h.last_current hp
  · intro hp
    rcases List.mem_append.mp hp with hp | hp
    · exact h.last_segments hp
    · exact Nat.lt_irrefl _ ((List.mem_singleton.mp hp) ▸ h.last_alloc)
  · intro p hp
    rw [show w.inserted = [] from idle.2] at hp
    cases hp
  · intro p hp
    rw [show w.inserted = [] from idle.2] at hp
    cases hp

/-- Every step keeps the shape. -/
theorem step (h : Shape w) {changes : List (Change B ID Vec)} {w' : Work B ID}
    (hstep : Step rt changes w w') : Shape w' := by
  cases hstep with
  | append _ rows => exact h.append rows
  | sealLast _ idle full stored => exact h.sealLast idle stored
  | report => exact h.notify _ _ _
  | merge hmerge =>
    cases hmerge with
    | join j reported left right kinds => exact h.join left right
    | finish => exact h.finish
    | compact idle => exact h.compact idle
  | elsewhere _ n => exact h.elsewhere n
  | erase _ ids => exact h.erase ids
  | push _ wf idle stored => exact h.push wf idle stored

/-- The shape holds after every history. -/
theorem of_runs (h : Shape w) {changes : List (Change B ID Vec)} {w' : Work B ID}
    (hruns : Runs (Step rt) changes w w') : Shape w' :=
  hruns.invariant (P := fun _ u => Shape u) (fun _ _ _ _ hu hs => hu.step hs) h

end Shape

/-! ## The configuration -/

namespace Index

/-- No step changes the configuration. -/
theorem step_config {rt : Runtime B ID Vec Dist} {ls : List (Change B ID Vec)} {w w' : Work B ID}
    (h : Step rt ls w w') : w'.index.config = w.index.config := by
  cases h with
  | append w rows => rfl
  | sealLast w idle full stored =>
    obtain ⟨levels, -, rfl⟩ := storageAdd_eq_ok stored
    rfl
  | report w =>
    obtain ⟨calls, hcalls⟩ := w.index.notify_eq [] w.fresh
    rw [hcalls]
  | merge hmerge =>
    cases hmerge with
    | join j reported left right kinds => rfl
    | finish =>
      obtain ⟨segments, trace, calls, heq, -, -⟩ := w.index.finishPass_eq w.erased w.inserted
      rw [heq]
    | compact idle => rfl
  | elsewhere w n => rfl
  | erase w ids => rfl
  | push w wf idle stored =>
    obtain ⟨levels, -, rfl⟩ := pushSegment_eq_ok stored
    rfl

theorem run_config {rt : Runtime B ID Vec Dist} {idx idx' : Index B ID} {ops : List (Op B ID Vec)}
    (h : idx.run rt ops = .ok idx') : idx'.config = idx.config :=
  (run_runs h).invariant (P := fun _ w => w.index.config = idx.config)
    (fun _ _ _ _ hw hstep => (step_config hstep).trans hw) rfl

theorem fill_config {rt : Runtime B ID Vec Dist} {idx filled : Index B ID} {rows : List (ID × Vec)}
    (h : idx.fill rt rows = .ok filled) : filled.config = idx.config :=
  (fill_runs h).invariant (P := fun _ w => w.index.config = idx.config)
    (fun _ _ _ _ hw hstep => (step_config hstep).trans hw) rfl

end Index

end Vecodex
