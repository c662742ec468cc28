import Mathlib.Algebra.Order.BigOperators.Group.List
import Vecodex.Laws.Fresh

/-!
# The budget of a merge

`merge(amount)` walks the levels upward while it appends to them, and it may join a segment again
that it has joined in the level below. It ends because every join takes a segment out of the levels
(`mergeLoop_total`), not because of the amount: a pair of empty segments costs nothing.

The amount is spent pair by pair. With ids that are never added twice the sizes of two neighbours
add up without wrapping, so what a merge spends is the sum of the sizes of the pairs it joins
(`Spending`), and the amount never goes below zero.

A `StorageCall` is a call on the storage itself, with segments from anywhere: `Index::add` and
`pushSegment` are two ways to make such calls. Erases reach the segments from outside.
-/

namespace Vecodex

open Lib

variable {B ID Vec Dist : Type}

/-! ## What a merge joined -/

/-- The two segments of a join, as they were before it. -/
def MergeEvent.pair? : MergeEvent B ID → Option (Segment B ID × Segment B ID)
  | .joined survivor absorbed => some (survivor, absorbed)
  | .dropped _ _ _ => none

/-- The pairs that were joined. -/
def joinedPairs (events : List (MergeEvent B ID)) : List (Segment B ID × Segment B ID) :=
  events.filterMap MergeEvent.pair?

/-- The sizes of all pairs that were joined. -/
def spent (events : List (MergeEvent B ID)) : Nat :=
  ((joinedPairs events).map fun pair => pair.1.size + pair.2.size).sum

theorem joinedPairs_append (events events' : List (MergeEvent B ID)) :
    joinedPairs (events ++ events') = joinedPairs events ++ joinedPairs events' :=
  List.filterMap_append

theorem spent_append (events events' : List (MergeEvent B ID)) :
    spent (events ++ events') = spent events + spent events' := by
  simp only [spent, joinedPairs_append, List.map_append, List.sum_append]

namespace Index

/-- Dropping references joins nothing. -/
theorem foldl_dropId_trace (idx : Index B ID) (ids : List Nat) :
    ∃ drops, (ids.foldl dropId idx).trace = idx.trace ++ drops ∧ joinedPairs drops = [] := by
  induction ids generalizing idx with
  | nil => exact ⟨[], (List.append_nil _).symm, rfl⟩
  | cons id ids ih =>
    obtain ⟨drops, htrace, hnone⟩ := ih (idx.dropId id)
    rw [List.foldl_cons, htrace]
    rcases idx.dropId_cases id with ⟨-, hsame⟩ | ⟨p, left, -, -, -, hdrop⟩
    · rw [hsame]
      exact ⟨drops, rfl, hnone⟩
    · rw [hdrop]
      exact ⟨.dropped p left idx.current :: drops, List.append_assoc _ _ _, hnone⟩

theorem finishPass_trace (idx : Index B ID) (erased inserted : List Nat) :
    ∃ drops, (idx.finishPass erased inserted).trace = idx.trace ++ drops ∧
      joinedPairs drops = [] := by
  obtain ⟨drops, htrace, hnone⟩ :=
    foldl_dropId_trace { idx with segments := idx.segments ++ inserted } erased
  exact ⟨drops, (idx.finishPass_drops erased inserted).2.trans htrace, hnone⟩

variable [DecidableEq ID]

/-- What the joins and the ends of the passes keep, the outer loop keeps. -/
theorem mergeLoop_keeps {rt : Runtime B ID Vec Dist} {P : Nat → MergeState B ID → Prop}
    (join : ∀ i j s a b, P i s → s.index.levels.cell i j = some a →
      s.index.levels.cell i (j + 1) = some b →
      sizeT ((s.index.seg a).size + (s.index.seg b).size) ≤ s.amount →
      P i { index := s.index.join rt i j a b
            amount := s.amount - sizeT ((s.index.seg a).size + (s.index.seg b).size)
            erased := s.erased ++ [s.index.idOf b, s.index.idOf a]
            inserted := s.inserted ++ [a] })
    (finish : ∀ i s, P i s → P (i + 1) { s with
      index := s.index.finishPass s.erased s.inserted
      erased := []
      inserted := [] })
    {fuel i : Nat} {s t : MergeState B ID} (h : mergeLoop rt fuel i s = .ok t) (hs : P i s) :
    ∃ k, P k t := by
  induction fuel generalizing i s with
  | zero =>
    rw [mergeLoop] at h
    split at h
    · cases h
    · cases h
      exact ⟨i, hs⟩
  | succ fuel ih =>
    rw [mergeLoop] at h
    split at h
    · obtain ⟨u, hu, hrest⟩ := bind_eq_ok.mp h
      refine ih hrest (finish i u (foldlM_preserves (P := P i) ?_ hs hu))
      intro v w j _ hv hpair
      rcases mergePair_eq_ok hpair with rfl | ⟨a, b, ha, hb, hneed, -, rfl⟩
      · exact hv
      · exact join i j v a b hv ha hb hneed
    · cases h
      exact ⟨i, hs⟩

/-! ## The sizes of the segments -/

/-- The live ids of all segments of the levels. -/
def total (idx : Index B ID) : Nat :=
  (idx.current.map fun p => (idx.seg p).index.liveIds.card).sum

theorem card_le_total {idx : Index B ID} {p : Nat} (hp : p ∈ idx.current) :
    (idx.seg p).index.liveIds.card ≤ idx.total :=
  List.le_sum_of_mem (List.mem_map_of_mem hp)

/-- A join moves live ids from one segment of the levels to another. -/
theorem total_join {rt : Runtime B ID Vec Dist} {used : List ID} {w : Work B ID}
    (htidy : Tidy used w.index) (hshape : Shape w) {j a b : Nat}
    (left : w.index.levels.cell w.level j = some a)
    (right : w.index.levels.cell w.level (j + 1) = some b) :
    (w.index.join rt w.level j a b).total = w.index.total := by
  obtain ⟨hperm, hne, ha, -, -⟩ := hshape.join_cells rt left right
  have hnodup := (List.nodup_cons.mp (hperm.nodup_iff.mp hshape.nodup)).2
  obtain ⟨rest, hrest⟩ : ∃ rest, (w.index.join rt w.level j a b).current.Perm (a :: rest) :=
    ⟨_, List.perm_cons_erase ha⟩
  have haway : a ∉ rest := (List.nodup_cons.mp (hrest.nodup_iff.mp hnodup)).1
  have hsame : rest.map (fun p => ((w.index.join rt w.level j a b).seg p).index.liveIds.card) =
      rest.map fun p => (w.index.seg p).index.liveIds.card := by
    refine List.map_congr_left fun p hp => ?_
    rw [join_seg, if_neg (ne_of_mem_of_not_mem hp haway)]
  have hsum := FaissIndex.card_liveIds_merge (hshape.wf a) (hshape.wf b) rt
    (htidy.cells_apart hshape left right)
  have hafter : (w.index.join rt w.level j a b).total =
      (w.index.seg a).index.liveIds.card + (w.index.seg b).index.liveIds.card +
        (rest.map fun p => (w.index.seg p).index.liveIds.card).sum := by
    rw [total, (hrest.map _).sum_eq, List.map_cons, List.sum_cons, hsame, join_seg, if_pos rfl,
      hsum]
  have hbefore : w.index.total = (w.index.seg b).index.liveIds.card +
      ((w.index.seg a).index.liveIds.card +
        (rest.map fun p => (w.index.seg p).index.liveIds.card).sum) := by
    rw [total, (hperm.map _).sum_eq, List.map_cons, List.sum_cons, (hrest.map _).sum_eq,
      List.map_cons, List.sum_cons]
  omega

/-! ## A merge -/

/-- What a merge has done so far, from `start` and with `amount` at its beginning. -/
structure Spending (start : Index B ID) (amount : Nat) (used : List ID) (i : Nat)
    (s : MergeState B ID) : Prop where
  shape : Shape (s.work i)
  tidy : Tidy used s.index
  total : s.index.total = start.total
  counter : s.index.counter = sizeT s.index.current.length
  joined : ∃ new, s.index.trace = start.trace ++ new ∧ spent new + s.amount ≤ amount ∧
    s.index.current.length + (joinedPairs new).length = start.current.length

namespace Spending

variable {rt : Runtime B ID Vec Dist} {start : Index B ID} {amount : Nat} {used : List ID}
  {i : Nat} {s : MergeState B ID}

/-- A join pays the sizes of its two segments. -/
theorem join (h : Spending start amount used i s) (hfit : start.total < 2 ^ 62) {j a b : Nat}
    (left : s.index.levels.cell i j = some a) (right : s.index.levels.cell i (j + 1) = some b)
    (hneed : sizeT ((s.index.seg a).size + (s.index.seg b).size) ≤ s.amount) :
    Spending start amount used i
      { index := s.index.join rt i j a b
        amount := s.amount - sizeT ((s.index.seg a).size + (s.index.seg b).size)
        erased := s.erased ++ [s.index.idOf b, s.index.idOf a]
        inserted := s.inserted ++ [a] } := by
  have hsize : ∀ {p}, p ∈ s.index.current → (s.index.seg p).size ≤ start.total := by
    intro p hp
    have honce := h.tidy.once p (mem_owners.mpr (Or.inl hp))
    have hle : (s.index.seg p).size ≤ (s.index.seg p).index.liveIds.card :=
      honce.size_le (h.shape.wf p)
    exact (hle.trans (card_le_total hp)).trans h.total.le
  have ha := hsize (mem_current_of_cell left)
  have hb := hsize (mem_current_of_cell right)
  have hexact : sizeT ((s.index.seg a).size + (s.index.seg b).size) =
      (s.index.seg a).size + (s.index.seg b).size := by
    unfold sizeT
    omega
  rw [hexact] at hneed ⊢
  have hlength : s.index.current.length = (s.index.join rt i j a b).current.length + 1 :=
    (h.shape.join_cells rt left right).1.length_eq
  obtain ⟨new, htrace, hspent, hcount⟩ := h.joined
  refine ⟨h.shape.join left right, h.tidy.join h.shape left right,
    (total_join h.tidy h.shape left right).trans h.total, ?_,
    new ++ [.joined (s.index.seg a) (s.index.seg b)], ?_, ?_, ?_⟩
  · show sizeT (s.index.counter - 1) = sizeT (s.index.join rt i j a b).current.length
    rw [h.counter, hlength]
    unfold sizeT
    omega
  · show s.index.trace ++ [_] = _
    rw [htrace, List.append_assoc]
  · rw [spent_append]
    show spent new + ((s.index.seg a).size + (s.index.seg b).size + 0) + (s.amount - _) ≤ amount
    omega
  · rw [joinedPairs_append, List.length_append]
    show (s.index.join rt i j a b).current.length + ((joinedPairs new).length + 1) = _
    omega

/-- The end of a pass pays nothing. -/
theorem finish (h : Spending start amount used i s) :
    Spending start amount used (i + 1) { s with
      index := s.index.finishPass s.erased s.inserted
      erased := []
      inserted := [] } := by
  obtain ⟨new, htrace, hspent, hcount⟩ := h.joined
  obtain ⟨drops, hdrops, hnone⟩ := s.index.finishPass_trace s.erased s.inserted
  have hfree : spent drops = 0 := by
    rw [spent, hnone]
    rfl
  have hshape := h.shape.finish
  obtain ⟨segments, trace, calls, heq, -, -⟩ := s.index.finishPass_eq s.erased s.inserted
  have hsame : s.index.finishPass s.erased s.inserted =
      { s.index with segments := segments, trace := trace, calls := calls } := heq
  refine ⟨hshape, ?_, ?_, ?_, new ++ drops, ?_, ?_, ?_⟩
  · rw [hsame]
    exact h.tidy.congr (fun p hp => hp) fun p => rfl
  · rw [hsame]
    exact h.total
  · rw [hsame]
    exact h.counter
  · show (s.index.finishPass s.erased s.inserted).trace = _
    rw [hdrops, htrace, List.append_assoc]
  · rw [spent_append, hfree]
    exact hspent
  · rw [joinedPairs_append, hnone, List.append_nil, hsame]
    exact hcount

end Spending

/-- A storage whose segments are of one kind and share no id. -/
structure Stored (used : List ID) (idx : Index B ID) : Prop where
  shape : Shape idx.rest
  kind : ∀ p, (idx.seg p).index.kind = idx.config.kind
  tidy : Tidy used idx
  counter : idx.counter = sizeT idx.current.length

/-- A merge within its budget: what it joined, and what it left. -/
structure Merged (idx : Index B ID) (amount : Nat) (idx' : Index B ID) : Prop where
  spent : ∃ new, idx'.trace = idx.trace ++ new ∧ spent new ≤ amount ∧
    idx'.current.length + (joinedPairs new).length = idx.current.length
  notNull : ∀ row ∈ idx'.levels, none ∉ row
  counter : idx'.counter = sizeT idx'.current.length

/-- A merge returns, within its budget, and leaves a storage of the same kind. -/
theorem Stored.merge (rt : Runtime B ID Vec Dist) {used : List ID} {idx : Index B ID}
    (h : Stored used idx) (hfit : idx.total < 2 ^ 62) (amount : Nat) :
    ∃ idx', idx.merge rt amount = .ok idx' ∧ Merged idx amount idx' ∧ Stored used idx' ∧
      idx'.total = idx.total ∧ idx'.config = idx.config := by
  have hstart : Merging idx.config idx.last (idx.seg idx.last)
      (MergeState.work { index := idx, amount := amount, erased := [], inserted := [] } 0) :=
    ⟨h.shape, h.kind, rfl, rfl, rfl⟩
  obtain ⟨t, k, ht, hend⟩ := mergeLoop_total rt (Nat.le_refl _) hstart
  have hbegin : Spending idx amount used 0
      { index := idx, amount := amount, erased := [], inserted := [] } :=
    ⟨h.shape, h.tidy, rfl, h.counter, [], (List.append_nil _).symm, Nat.le_of_eq (Nat.zero_add _),
      rfl⟩
  obtain ⟨k, hspending⟩ := mergeLoop_keeps (P := Spending idx amount used)
    (fun i j s a b hs left right hneed => hs.join hfit left right hneed)
    (fun i s hs => hs.finish) ht hbegin
  have hmerge : idx.merge rt amount = .ok t.index.compactLevels :=
    bind_eq_ok.mpr ⟨t, ht, rfl⟩
  have hcurrent : t.index.compactLevels.current = t.index.current := t.index.current_compactLevels
  have hcounter : t.index.compactLevels.counter = sizeT t.index.compactLevels.current.length := by
    rw [hcurrent]
    exact hspending.counter
  have hconfig : t.index.config = idx.config := hend.config_eq
  obtain ⟨new, htrace, hspent, hcount⟩ := hspending.joined
  refine ⟨t.index.compactLevels, hmerge, ⟨⟨new, htrace, by omega, ?_⟩, ?_, hcounter⟩,
    ⟨h.shape.of_runs (merge_runs hmerge), ?_, ?_, hcounter⟩, ?_, hconfig⟩
  · rw [hcurrent]
    exact hcount
  · exact Grid.not_null_compact t.index.levels
  · intro p
    show (t.index.seg p).index.kind = t.index.config.kind
    rw [hconfig]
    exact hend.kind p
  · refine hspending.tidy.congr (fun p hp => ?_) fun p => rfl
    rw [mem_owners, hcurrent] at hp
    exact mem_owners.mpr hp
  · rw [Index.total, hcurrent]
    exact hspending.total

/-- A segment from outside enters the storage. -/
theorem Stored.storageAdd {used : List ID} {idx : Index B ID} (h : Stored used idx)
    {segment : Segment B ID} (hwf : segment.index.Wf) (hkind : segment.index.kind = idx.config.kind)
    (honce : segment.index.BoundOnce) (hnew : ∀ x ∈ segment.index.ids, x ∉ used)
    (hfit : segment.index.liveIds.card < 2 ^ 62) :
    ∃ st, ({ idx with heap := idx.heap.alloc segment } : Index B ID).storageAdd idx.heap.next =
        .ok st ∧ Stored (used ++ segment.index.ids.keys) st ∧
      st.total = idx.total + segment.index.liveIds.card ∧ st.config = idx.config := by
  have hseg : ∀ p, (idx.heap.alloc segment).get p =
      if p = idx.heap.next then segment else idx.seg p := alloc_seg idx segment
  have hsize : segment.size ≤ segment.index.liveIds.card := honce.size_le hwf
  obtain ⟨st, hst⟩ := ({ idx with heap := idx.heap.alloc segment } : Index B ID).storageAdd_total
    (p := idx.heap.next) (by
      show ((idx.heap.alloc segment).get idx.heap.next).size ≤ 2 ^ 63
      rw [Heap.alloc_get_next]
      omega)
  have htidy := h.tidy.storageAdd honce hnew hst
  -- `pushSegment` makes the same call and then adds a reference
  have hpush : idx.pushSegment segment = .ok (({ st with
      segments := st.segments ++ [idx.heap.next] } : Index B ID).notify [] [idx.heap.next]) :=
    bind_eq_ok.mpr ⟨st, hst, rfl⟩
  obtain ⟨calls, hcalls⟩ := notify_eq ({ st with
    segments := st.segments ++ [idx.heap.next] } : Index B ID) [] [idx.heap.next]
  rw [hcalls] at hpush
  have hshape := h.shape.push hwf ⟨rfl, rfl⟩ hpush
  obtain ⟨levels, hperm, rfl⟩ := storageAdd_eq_ok hst
  have hfresh : idx.heap.next ∉ idx.current := fun hp =>
    Nat.lt_irrefl _ (h.shape.current_alloc _ hp)
  refine ⟨_, hst, ⟨?_, fun p => ?_, htidy, ?_⟩, ?_, rfl⟩
  · exact ⟨hshape.wf, hshape.nodup, hshape.current_alloc,
      fun p hp => hshape.segments_alloc p (List.mem_append_left _ hp), hshape.last_alloc,
      hshape.last_current, fun hp => hshape.last_segments (List.mem_append_left _ hp),
      hshape.inserted_current, hshape.inserted_row⟩
  · show ((idx.heap.alloc segment).get p).index.kind = idx.config.kind
    rw [hseg]
    split
    · exact hkind
    · exact h.kind p
  · show sizeT (idx.counter + 1) = sizeT (Grid.items levels).length
    rw [hperm.length_eq, h.counter, List.length_cons]
    show sizeT (sizeT idx.current.length + 1) = sizeT ((idx.current.length + 1 : Nat) : Int)
    unfold sizeT
    omega
  · show ((Grid.items levels).map fun p =>
      ((idx.heap.alloc segment).get p).index.liveIds.card).sum = _
    have hold : idx.current.map (fun p => ((idx.heap.alloc segment).get p).index.liveIds.card) =
        idx.current.map fun p => (idx.seg p).index.liveIds.card := by
      refine List.map_congr_left fun p hp => ?_
      rw [hseg, if_neg (ne_of_mem_of_not_mem hp hfresh)]
    rw [(hperm.map _).sum_eq, List.map_cons, List.sum_cons, Heap.alloc_get_next, Nat.add_comm]
    show (idx.current.map _).sum + _ = _
    rw [hold]
    rfl

/-- One segment is told to delete ids. -/
def deleteIn (idx : Index B ID) (p : Nat) (ids : List ID) : Index B ID :=
  { idx with heap := idx.heap.modify p fun s => s.deleteBatch ids }

theorem deleteIn_seg (idx : Index B ID) (p : Nat) (ids : List ID) (q : Nat) :
    (idx.deleteIn p ids).seg q = if q = p then (idx.seg q).deleteBatch ids else idx.seg q := by
  unfold deleteIn seg
  dsimp only
  split
  · next heq =>
    subst heq
    exact Heap.modify_get_self _ _ _
  · next hne => exact Heap.modify_get_of_ne _ hne

theorem Stored.deleteIn {used : List ID} {idx : Index B ID} (h : Stored used idx) (p : Nat)
    (ids : List ID) :
    Stored used (idx.deleteIn p ids) ∧ (idx.deleteIn p ids).total ≤ idx.total := by
  have hwf : ∀ q, (idx.seg q).index.Wf := h.shape.wf
  refine ⟨⟨⟨fun q => ?_, h.shape.nodup, h.shape.current_alloc, h.shape.segments_alloc,
    h.shape.last_alloc, h.shape.last_current, h.shape.last_segments, h.shape.inserted_current,
    h.shape.inserted_row⟩, fun q => ?_, ?_, h.counter⟩, ?_⟩
  · show ((idx.deleteIn p ids).seg q).index.Wf
    rw [deleteIn_seg]
    split
    · exact (hwf q).eraseBatch ids
    · exact hwf q
  · show ((idx.deleteIn p ids).seg q).index.kind = idx.config.kind
    rw [deleteIn_seg]
    split
    · exact (FaissIndex.eraseBatch_kind _ ids).trans (h.kind q)
    · exact h.kind q
  · refine h.tidy.transfer (fun q hq => hq) (fun q _ honce => ?_) fun q _ x hx => ?_
    · rw [deleteIn_seg]
      split
      · exact honce.eraseBatch ids
      · exact honce
    · rw [deleteIn_seg] at hx
      split at hx
      · rwa [show ((idx.seg q).deleteBatch ids).index.ids = (idx.seg q).index.ids from
          FaissIndex.eraseBatch_ids _ ids] at hx
      · exact hx
  · refine List.sum_le_sum fun q _ => ?_
    rw [deleteIn_seg]
    split
    · exact FaissIndex.card_liveIds_eraseBatch (hwf q) ids
    · exact Nat.le_refl _

theorem Stored.create (rt : Runtime B ID Vec Dist) (config : IndexConfig) (callback : Bool)
    (draws : Nat) : Stored [] (create rt config callback draws : Index B ID) where
  shape := Shape.create rt config callback draws
  kind p := by
    rw [create_seg]
    rfl
  tidy := Tidy.create rt config callback draws
  counter := rfl

end Index

/-! ## Calls on a storage -/

/-- A call on a segment storage, or an erase in one of its segments. -/
inductive StorageCall (B ID : Type)
  | add (segment : Segment B ID)
  | erase (p : Nat) (ids : List ID)
  | merge (amount : Nat)

namespace StorageCall

variable [DecidableEq ID]

def exec (rt : Runtime B ID Vec Dist) (idx : Index B ID) :
    StorageCall B ID → Except Fault (Index B ID)
  | .add segment =>
    ({ idx with heap := idx.heap.alloc segment } : Index B ID).storageAdd idx.heap.next
  | .erase p ids => .ok (idx.deleteIn p ids)
  | .merge amount => idx.merge rt amount

def run (rt : Runtime B ID Vec Dist) (idx : Index B ID) (calls : List (StorageCall B ID)) :
    Except Fault (Index B ID) :=
  calls.foldlM (exec rt) idx

/-- The segments that are added. -/
def added (calls : List (StorageCall B ID)) : List (Segment B ID) :=
  calls.filterMap fun
    | .add segment => some segment
    | .erase _ _ => none
    | .merge _ => none

/-- The added segments are of one kind, every id has one position in one of them, and they have
fewer than 2^62 vectors. -/
structure Fresh (kind : BaseKind) (calls : List (StorageCall B ID)) : Prop where
  wf : ∀ segment ∈ added calls, segment.index.Wf
  kind : ∀ segment ∈ added calls, segment.index.kind = kind
  once : ∀ segment ∈ added calls, segment.index.BoundOnce
  apart : ((added calls).flatMap fun segment => segment.index.ids.keys).Nodup
  total : ((added calls).map fun segment => segment.index.liveIds.card).sum < 2 ^ 62

/-- Calls on a storage of fresh segments return. -/
theorem run_stored (rt : Runtime B ID Vec Dist) {used : List ID} {idx : Index B ID}
    (h : Index.Stored used idx) {calls : List (StorageCall B ID)}
    (hwf : ∀ segment ∈ added calls, segment.index.Wf)
    (hkind : ∀ segment ∈ added calls, segment.index.kind = idx.config.kind)
    (honce : ∀ segment ∈ added calls, segment.index.BoundOnce)
    (hapart : (used ++ (added calls).flatMap fun segment => segment.index.ids.keys).Nodup)
    (htotal : idx.total + ((added calls).map fun segment => segment.index.liveIds.card).sum <
      2 ^ 62) :
    ∃ st used', run rt idx calls = .ok st ∧ Index.Stored used' st ∧ st.total < 2 ^ 62 := by
  induction calls generalizing idx used with
  | nil => exact ⟨idx, used, rfl, h, by simpa [added] using htotal⟩
  | cons call calls ih =>
    rw [run, List.foldlM_cons]
    cases call with
    | add segment =>
      have hadded : added (.add segment :: calls) = segment :: added calls := rfl
      rw [hadded] at hwf hkind honce hapart htotal
      simp only [List.forall_mem_cons] at hwf hkind honce
      rw [List.flatMap_cons, ← List.append_assoc] at hapart
      rw [List.map_cons, List.sum_cons] at htotal
      have hnew : ∀ x ∈ segment.index.ids, x ∉ used := fun x hx hused =>
        (List.nodup_append.mp (List.nodup_append.mp hapart).1).2.2 x hused x
          (AList.mem_keys.mp hx) rfl
      obtain ⟨st, hst, hstored, hsum, hconfig⟩ :=
        h.storageAdd hwf.1 hkind.1 honce.1 hnew (by omega)
      rw [show exec rt idx (.add segment) = .ok st from hst, ok_bind]
      exact ih hstored hwf.2 (hconfig ▸ hkind.2) honce.2 hapart (by omega)
    | erase p ids =>
      obtain ⟨hstored, hle⟩ := h.deleteIn p ids
      exact ih hstored hwf hkind honce hapart
        (Nat.lt_of_le_of_lt (Nat.add_le_add_right hle _) htotal)
    | merge amount =>
      obtain ⟨st, hst, -, hstored, hsum, hconfig⟩ := h.merge rt (by omega) amount
      rw [show exec rt idx (.merge amount) = .ok st from hst, ok_bind]
      exact ih hstored hwf (hconfig ▸ hkind) honce hapart (by rwa [hsum])

end StorageCall

variable [DecidableEq ID]

/-- In every state that calls on a storage of fresh segments reach, a merge returns, spends no more
than its amount on the pairs it joins, and takes one segment out of the levels for each. -/
theorem merge_within_budget (rt : Runtime B ID Vec Dist) (config : IndexConfig) (callback : Bool)
    (draws : Nat) (calls : List (StorageCall B ID)) (hfresh : StorageCall.Fresh config.kind calls) :
    ∃ idx, StorageCall.run rt (Index.create rt config callback draws) calls = .ok idx ∧
      ∀ amount, ∃ idx', idx.merge rt amount = .ok idx' ∧ Index.Merged idx amount idx' := by
  have hstart : (Index.create rt config callback draws : Index B ID).total = 0 := rfl
  obtain ⟨idx, used, hrun, hstored, hfit⟩ := StorageCall.run_stored rt
    (Index.Stored.create rt config callback draws) hfresh.wf hfresh.kind hfresh.once hfresh.apart
    (by rw [hstart, Nat.zero_add]; exact hfresh.total)
  refine ⟨idx, hrun, fun amount => ?_⟩
  obtain ⟨idx', hmerge, hmerged, -⟩ := hstored.merge rt hfit amount
  exact ⟨idx', hmerge, hmerged⟩

/-- A segment with one document. -/
def singleSegment (x v : Nat) : Segment (List Nat) Nat :=
  { segId := x, index := (FaissIndex.create (lineRuntime Nat id) .flat).addBatch
      (lineRuntime Nat id) [(x, v)] }

theorem singleSegment_wf (x v : Nat) : (singleSegment x v).index.Wf :=
  (FaissIndex.wf_create _ .flat).addBatch _ _

theorem singleSegment_once (x v : Nat) : (singleSegment x v).index.BoundOnce :=
  (FaissIndex.boundOnce_create _ .flat).addBatch (FaissIndex.wf_create _ .flat) _
    (List.nodup_singleton _) fun y _ => FaissIndex.not_mem_ids_create _ .flat y

/-- An empty segment costs a merge nothing. -/
theorem merge_within_budget_empty :
    ∃ idx, StorageCall.run (lineRuntime Nat id)
        (Index.create (lineRuntime Nat id) (unitConfig true) false 0)
        [.add (singleSegment 1 10), .add (singleSegment 2 20), .erase 2 [2]] = .ok idx ∧
      ∀ amount, ∃ idx', idx.merge (lineRuntime Nat id) amount = .ok idx' ∧
        Index.Merged idx amount idx' := by
  refine merge_within_budget (lineRuntime Nat id) (unitConfig true) false 0 _ ⟨?_, ?_, ?_, ?_, ?_⟩
  · simp only [StorageCall.added, List.filterMap, List.forall_mem_cons]
    exact ⟨singleSegment_wf 1 10, singleSegment_wf 2 20, List.forall_mem_nil _⟩
  · simp only [StorageCall.added, List.filterMap, List.forall_mem_cons]
    exact ⟨rfl, rfl, List.forall_mem_nil _⟩
  · simp only [StorageCall.added, List.filterMap, List.forall_mem_cons]
    exact ⟨singleSegment_once 1 10, singleSegment_once 2 20, List.forall_mem_nil _⟩
  · decide +kernel
  · decide +kernel

end Vecodex
