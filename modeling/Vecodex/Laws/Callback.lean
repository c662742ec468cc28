import Vecodex.Laws.SegmentIds
import Vecodex.Lib.Ledger

/-!
# The update callback

The calls of the update callback are a ledger of segment ids: a call takes the erased ids out and
puts in the ids its segments carry at that moment. Replayed from nothing, the ledger holds the ids
of the segments of the levels after every call on the index, each once (`observer_holds_levels`).

Inside a call on the index the ledger lags behind. What is missing is pending: the sealed segments
`add` has not reported yet, and the ids and segments of the current pass of a merge
(`Observed.ledger`).
-/

namespace Vecodex

open Lib

variable {B ID Vec Dist : Type}

/-- The collection of an observer of all calls. -/
def observed (calls : List Call) : Option (List Nat) :=
  calls.foldlM (fun coll call => post coll (call.erased, call.seen)) []

theorem observed_append {calls : List Call} {coll coll' : List Nat} (h : observed calls = some coll)
    {call : Call} (hcall : post coll (call.erased, call.seen) = some coll') :
    observed (calls ++ [call]) = some coll' := by
  unfold observed at *
  rw [List.foldlM_append, h, Option.bind_eq_bind, Option.bind_some, List.foldlM_cons, hcall]
  rfl

/-- The end of a pass reports what it joined, if anything. -/
theorem finishPass_calls {idx : Index B ID} (hcallback : idx.callback = true)
    (erased inserted : List Nat) :
    (idx.finishPass erased inserted).calls =
      if erased = [] ∨ inserted = [] then idx.calls
      else idx.calls ++ [⟨erased, inserted, inserted.map idx.idOf⟩] := by
  obtain ⟨segments, trace, heq, -, -⟩ :=
    Index.foldl_dropId_eq { idx with segments := idx.segments ++ inserted } erased
  unfold Index.finishPass
  dsimp only
  rw [heq]
  cases erased with
  | nil => rfl
  | cons e es =>
    cases inserted with
    | nil => rfl
    | cons p ps => exact congrArg Index.calls (if_pos hcallback)

section Calls

variable [DecidableEq ID]

/-- Calls are never taken back. -/
theorem Step.calls_prefix {rt : Runtime B ID Vec Dist} {changes : List (Change B ID Vec)}
    {w w' : Work B ID} (hstep : Step rt changes w w') : w.index.calls <+: w'.index.calls := by
  have hnotify : ∀ (idx : Index B ID) erased inserted,
      idx.calls <+: (idx.notify erased inserted).calls := by
    intro idx erased inserted
    unfold Index.notify
    split
    · exact List.prefix_append _ _
    · exact List.prefix_refl _
  cases hstep with
  | append _ rows => exact List.prefix_refl _
  | sealLast _ idle full stored =>
    obtain ⟨levels, -, rfl⟩ := Index.storageAdd_eq_ok stored
    exact List.prefix_refl _
  | report => exact hnotify _ _ _
  | merge hmerge =>
    cases hmerge with
    | join j reported left right kinds => exact List.prefix_refl _
    | finish =>
      obtain ⟨segments, trace, heq, -, -⟩ := Index.foldl_dropId_eq
        { w.index with segments := w.index.segments ++ w.inserted } w.erased
      show w.index.calls <+: (w.index.finishPass w.erased w.inserted).calls
      unfold Index.finishPass
      dsimp only
      rw [heq]
      split
      · exact hnotify { w.index with segments := segments, trace := trace } _ _
      · exact List.prefix_refl _
    | compact idle => exact List.prefix_refl _
  | elsewhere _ n => exact List.prefix_refl _
  | erase _ ids => exact List.prefix_refl _
  | push _ wf idle stored =>
    obtain ⟨levels, -, rfl⟩ := Index.pushSegment_eq_ok stored
    dsimp only
    split
    · exact List.prefix_append _ _
    · exact List.prefix_refl _

theorem calls_prefix_of_runs {rt : Runtime B ID Vec Dist} {changes : List (Change B ID Vec)}
    {w w' : Work B ID} (hruns : Runs (Step rt) changes w w') : w.index.calls <+: w'.index.calls :=
  hruns.invariant (P := fun _ u => w.index.calls <+: u.index.calls)
    (fun _ _ _ _ hu hstep => hu.trans hstep.calls_prefix) (List.prefix_refl _)

end Calls

/-- The ledger of the calls and what is pending. -/
structure Observed (w : Work B ID) : Prop where
  callback : w.index.callback = true
  fresh_alloc : ∀ p ∈ w.fresh, w.index.heap.Alloc p
  /-- `add` reports before it merges. -/
  reported : w.fresh = [] ∨ w.Idle
  inserted_nodup : w.inserted.Nodup
  balance : w.erased.length = 2 * w.inserted.length
  ledger : ∃ coll, observed w.index.calls = some coll ∧
    (coll ++ w.fresh.map w.index.idOf ++ w.inserted.map w.index.idOf).Perm
      (w.index.current.map w.index.idOf ++ w.erased)

namespace Observed

variable {rt : Runtime B ID Vec Dist} {w : Work B ID}

theorem create (rt : Runtime B ID Vec Dist) (config : IndexConfig) (draws : Nat) :
    Observed (Index.create rt config true draws : Index B ID).rest where
  callback := rfl
  fresh_alloc p hp := by cases hp
  reported := Or.inl rfl
  inserted_nodup := List.nodup_nil
  balance := rfl
  ledger := ⟨[], rfl, List.Perm.refl _⟩

theorem drawn {idx : Index B ID} (h : Observed idx.rest) (draws : Nat) :
    Observed ({ idx with draws := draws } : Index B ID).rest :=
  ⟨h.callback, h.fresh_alloc, h.reported, h.inserted_nodup, h.balance, h.ledger⟩

/-- A step that renames no segment, moves none and calls nobody. -/
theorem transfer (h : Observed w) {idx : Index B ID} (level : Nat)
    (hnext : idx.heap.next = w.index.heap.next) (hid : ∀ p, idx.idOf p = w.index.idOf p)
    (hcallback : idx.callback = w.index.callback) (hcalls : idx.calls = w.index.calls)
    (hcurrent : idx.current = w.index.current) :
    Observed { w with index := idx, level := level } := by
  have hids : idx.idOf = w.index.idOf := funext hid
  constructor
  · exact hcallback.trans h.callback
  · intro p hp
    show p < idx.heap.next
    rw [hnext]
    exact h.fresh_alloc p hp
  · exact h.reported
  · exact h.inserted_nodup
  · exact h.balance
  · show ∃ coll, observed idx.calls = some coll ∧
      (coll ++ w.fresh.map idx.idOf ++ w.inserted.map idx.idOf).Perm
        (idx.current.map idx.idOf ++ w.erased)
    rw [hids, hcalls, hcurrent]
    exact h.ledger

/-- Segments that were there before keep their ids when one is allocated. -/
theorem map_idOf_alloc {idx idx' : Index B ID} {segment : Segment B ID}
    (hheap : idx'.heap = idx.heap.alloc segment) {ps : List Nat}
    (hps : ∀ p ∈ ps, idx.heap.Alloc p) : ps.map idx'.idOf = ps.map idx.idOf := by
  refine List.map_congr_left fun p hp => ?_
  unfold Index.idOf Index.seg
  rw [hheap, Heap.alloc_get_of_alloc _ (hps p hp)]

theorem report (h : Observed w) :
    Observed { w with index := w.index.notify [] w.fresh, fresh := [] } := by
  obtain ⟨coll, hcoll, hledger⟩ := h.ledger
  have hnotify : w.index.notify [] w.fresh = { w.index with
      calls := w.index.calls ++ [⟨[], w.fresh, w.fresh.map w.index.idOf⟩] } := if_pos h.callback
  rw [hnotify]
  constructor
  · exact h.callback
  · intro p hp
    cases hp
  · exact Or.inl rfl
  · exact h.inserted_nodup
  · exact h.balance
  · refine ⟨coll ++ w.fresh.map w.index.idOf, observed_append hcoll rfl, ?_⟩
    rw [List.map_nil, List.append_nil]
    exact hledger

/-- With two ids for every pair, a pass has joined nothing when one of its lists is empty. -/
theorem idle_of_nil (h : Observed w) (hidle : w.erased = [] ∨ w.inserted = []) : w.Idle := by
  have hbalance := h.balance
  rcases hidle with he | hi
  · rw [he, List.length_nil] at hbalance
    exact ⟨he, List.eq_nil_of_length_eq_zero (by omega)⟩
  · rw [hi, List.length_nil] at hbalance
    exact ⟨List.eq_nil_of_length_eq_zero (by omega), hi⟩

variable [DecidableEq ID]

theorem sealLast (h : Observed w) (hshape : Shape w) (idle : w.Idle) {idx : Index B ID}
    (stored : w.index.storageAdd w.index.last = .ok idx) :
    Observed { w with index := idx.openNext rt, fresh := w.fresh ++ [w.index.last] } := by
  obtain ⟨levels, hperm, rfl⟩ := Index.storageAdd_eq_ok stored
  have hfresh : ∀ p ∈ w.fresh ++ [w.index.last], w.index.heap.Alloc p := by
    intro p hp
    rcases List.mem_append.mp hp with hp | hp
    · exact h.fresh_alloc p hp
    · rw [List.mem_singleton.mp hp]
      exact hshape.last_alloc
  constructor
  · exact h.callback
  · exact fun p hp => Nat.lt_succ_of_lt (hfresh p hp)
  · exact Or.inr idle
  · exact h.inserted_nodup
  · exact h.balance
  · obtain ⟨coll, hcoll, hledger⟩ := h.ledger
    refine ⟨coll, hcoll, ?_⟩
    obtain ⟨he, hi⟩ := idle
    rw [he, hi, List.map_nil, List.append_nil, List.append_nil] at hledger
    show (coll ++ (w.fresh ++ [w.index.last]).map _ ++ w.inserted.map _).Perm
      ((Grid.items levels).map _ ++ w.erased)
    rw [he, hi, List.map_nil, List.append_nil, List.append_nil]
    refine List.Perm.trans ?_ (hperm.map _).symm
    rw [map_idOf_alloc rfl hfresh,
      map_idOf_alloc rfl (List.forall_mem_cons.mpr ⟨hshape.last_alloc, hshape.current_alloc⟩),
      List.map_append, ← List.append_assoc]
    exact (List.perm_append_singleton _ _).trans (hledger.cons _)

/-- The survivor of a join is pending under its new id, and both old ids are to be erased. -/
theorem join (h : Observed w) (hshape : Shape w) {j a b : Nat} (reported : w.fresh = [])
    (left : w.index.levels.cell w.level j = some a)
    (right : w.index.levels.cell w.level (j + 1) = some b) :
    Observed { w with
      index := w.index.join rt w.level j a b
      erased := w.erased ++ [w.index.idOf b, w.index.idOf a]
      inserted := w.inserted ++ [a] } := by
  obtain ⟨hperm, hne, ha, hia, -⟩ := hshape.join_cells rt left right
  constructor
  · exact h.callback
  · exact h.fresh_alloc
  · exact Or.inl reported
  · rw [List.nodup_append]
    refine ⟨h.inserted_nodup, List.nodup_singleton a, fun p hp q hq heq => hia ?_⟩
    rw [← List.mem_singleton.mp hq, ← heq]
    exact hp
  · show (w.erased ++ _).length = 2 * (w.inserted ++ [a]).length
    rw [List.length_append, List.length_append, h.balance]
    simp only [List.length_cons, List.length_nil]
    omega
  · obtain ⟨coll, hcoll, hledger⟩ := h.ledger
    refine ⟨coll, hcoll, ?_⟩
    have hrest := List.perm_cons_erase ha
    have hnodup := hrest.nodup_iff.mp (List.nodup_cons.mp (hperm.nodup_iff.mp hshape.nodup)).2
    -- the ids of all segments but the survivor stay
    have hsame : ∀ ps : List Nat, a ∉ ps →
        ps.map (w.index.join rt w.level j a b).idOf = ps.map w.index.idOf := by
      intro ps hps
      refine List.map_congr_left fun p hp => ?_
      rw [Index.join_idOf, if_neg (ne_of_mem_of_not_mem hp hps)]
    have hbefore := (hperm.trans (hrest.cons b)).map w.index.idOf
    have hafter := hrest.map (w.index.join rt w.level j a b).idOf
    rw [List.map_cons, hsame _ (List.nodup_cons.mp hnodup).1] at hafter
    show (coll ++ w.fresh.map _ ++ (w.inserted ++ [a]).map _).Perm
      ((w.index.join rt w.level j a b).current.map _ ++ (w.erased ++ _))
    rw [List.map_append, hsame _ hia, reported]
    rw [reported] at hledger
    refine List.perm_iff_count.mpr fun id => ?_
    have hold := (hledger.trans (hbefore.append_right w.erased)).count_eq id
    have hnew := hafter.count_eq id
    simp only [List.count_append, List.map_cons, List.map_nil, List.count_cons, List.count_nil]
      at hold hnew ⊢
    omega

/-- The end of a pass calls back when it joined something. -/
theorem finish (h : Observed w) (hshape : Shape w) :
    Observed { w with
      index := w.index.finishPass w.erased w.inserted
      level := w.level + 1
      erased := []
      inserted := [] } := by
  obtain ⟨coll, hcoll, hledger⟩ := h.ledger
  have hcalls := finishPass_calls h.callback w.erased w.inserted
  obtain ⟨segments, trace, calls, heq, -, -⟩ := w.index.finishPass_eq w.erased w.inserted
  rw [heq] at hcalls ⊢
  dsimp only at hcalls
  refine ⟨h.callback, h.fresh_alloc, Or.inr ⟨rfl, rfl⟩, List.nodup_nil, rfl, ?_⟩
  show ∃ coll, observed calls = some coll ∧
    (coll ++ w.fresh.map w.index.idOf ++ []).Perm (w.index.current.map w.index.idOf ++ [])
  simp only [List.append_nil]
  rw [hcalls]
  by_cases hidle : w.erased = [] ∨ w.inserted = []
  · obtain ⟨herased, hinserted⟩ := h.idle_of_nil hidle
    rw [herased, hinserted, List.map_nil, List.append_nil] at hledger
    rw [if_pos hidle]
    exact ⟨coll, hcoll, by simpa using hledger⟩
  · have hfresh : w.fresh = [] := h.reported.resolve_right fun hi => hidle (Or.inl hi.1)
    rw [hfresh, List.map_nil, List.append_nil] at hledger
    rw [if_neg hidle, hfresh]
    -- the promoted segments are in the levels, so what else the levels hold is in the ledger
    obtain ⟨some, hsome, hsub⟩ := List.subperm_of_subset h.inserted_nodup
      fun p hp => hshape.inserted_current p hp
    obtain ⟨rest, hrest⟩ := hsub.exists_perm_append
    have hids := (hrest.trans (hsome.append_right rest)).map w.index.idOf
    rw [List.map_append] at hids
    have hcut : coll.Perm (w.erased ++ rest.map w.index.idOf) := by
      refine List.perm_iff_count.mpr fun id => ?_
      have hold := hledger.count_eq id
      have hcur := hids.count_eq id
      simp only [List.count_append] at hold hcur ⊢
      omega
    obtain ⟨coll', hpost, hperm⟩ := post_of_perm hcut (w.inserted.map w.index.idOf)
    refine ⟨coll', observed_append hcoll hpost, ?_⟩
    rw [List.map_nil, List.append_nil]
    exact hperm.trans (List.perm_append_comm.trans hids.symm)

/-- A pushed segment is reported at once. -/
theorem push (h : Observed w) (hshape : Shape w) {segment : Segment B ID} (idle : w.Idle)
    {idx : Index B ID} (stored : w.index.pushSegment segment = .ok idx) :
    Observed { w with index := idx } := by
  obtain ⟨levels, hperm, rfl⟩ := Index.pushSegment_eq_ok stored
  obtain ⟨coll, hcoll, hledger⟩ := h.ledger
  constructor
  · exact h.callback
  · exact fun p hp => Nat.lt_succ_of_lt (h.fresh_alloc p hp)
  · exact Or.inr idle
  · exact h.inserted_nodup
  · exact h.balance
  · refine ⟨coll ++ [segment.segId], ?_, ?_⟩
    · show observed (if w.index.callback then _ else _) = _
      rw [if_pos h.callback]
      exact observed_append hcoll rfl
    · obtain ⟨he, hi⟩ := idle
      rw [he, hi, List.map_nil, List.append_nil, List.append_nil] at hledger
      show (coll ++ [segment.segId] ++ w.fresh.map _ ++ w.inserted.map _).Perm
        ((Grid.items levels).map _ ++ w.erased)
      rw [he, hi, List.map_nil, List.append_nil, List.append_nil, map_idOf_alloc rfl h.fresh_alloc]
      refine List.Perm.trans ?_ (hperm.map _).symm
      rw [List.map_cons, map_idOf_alloc rfl hshape.current_alloc]
      have hnew : ({ w.index with heap := w.index.heap.alloc segment } : Index B ID).idOf
          w.index.heap.next = segment.segId := congrArg Segment.segId (Heap.alloc_get_next _ _)
      refine List.perm_iff_count.mpr fun id => ?_
      have hold := hledger.count_eq id
      simp only [List.count_append, List.count_cons, List.count_nil] at hold ⊢
      show _ = _ + if ({ w.index with heap := w.index.heap.alloc segment } : Index B ID).idOf
          w.index.heap.next == id then 1 else 0
      rw [hnew]
      omega

/-- Every step keeps the ledger. -/
theorem step (h : Observed w) (hshape : Shape w) {changes : List (Change B ID Vec)}
    {w' : Work B ID} (hstep : Step rt changes w w') : Observed w' := by
  cases hstep with
  | append _ rows => exact h.transfer w.level rfl (w.index.appendLast_idOf rt rows) rfl rfl rfl
  | sealLast _ idle full stored => exact h.sealLast hshape idle stored
  | report => exact h.report
  | merge hmerge =>
    cases hmerge with
    | join j reported left right kinds => exact h.join hshape reported left right
    | finish => exact h.finish hshape
    | compact idle =>
      exact h.transfer 0 rfl (fun _ => rfl) rfl rfl w.index.current_compactLevels
  | elsewhere _ n => exact h.transfer w.level rfl (fun _ => rfl) rfl rfl rfl
  | erase _ ids =>
    exact h.transfer w.level (w.index.erase_next ids) (w.index.erase_idOf ids) rfl rfl rfl
  | push _ wf idle stored => exact h.push hshape idle stored

end Observed

/-! ## Histories -/

variable [DecidableEq ID]

/-- After every history, an observer of the callback holds the ids of the segments of the levels,
and every id a call erased was there at the call. -/
theorem ledger_of_run {rt : Runtime B ID Vec Dist} {config : IndexConfig} {draws : Nat}
    {ops : List (Op B ID Vec)} {st : Index B ID}
    (hrun : (Index.create rt config true draws).run rt ops = .ok st) :
    ∃ coll, observed st.calls = some coll ∧ coll.Perm (st.current.map st.idOf) := by
  have hinv := (Index.run_runs hrun).invariant (P := fun _ u => Shape u ∧ Observed u)
    (fun _ _ _ _ hu hstep => ⟨hu.1.step hstep, hu.2.step hu.1 hstep⟩)
    ⟨Shape.create rt config true draws, Observed.create rt config draws⟩
  obtain ⟨coll, hcoll, hledger⟩ := hinv.2.ledger
  exact ⟨coll, hcoll, by simpa [Index.rest] using hledger⟩

/-- With distinct segment ids it holds each once. -/
theorem observer_holds_levels (rt : Runtime B ID Vec Dist) (config : IndexConfig) (draws : Nat)
    (ops : List (Op B ID Vec)) (st : Index B ID)
    (hrun : (Index.create rt config true draws).run rt ops = .ok st)
    (hd : DistinctIds rt (ops.flatMap Op.changes) st.draws) :
    ∃ coll, observed st.calls = some coll ∧ coll.Perm (st.current.map st.idOf) ∧ coll.Nodup := by
  obtain ⟨coll, hcoll, hperm⟩ := ledger_of_run hrun
  exact ⟨coll, hcoll, hperm, hperm.nodup_iff.mpr (Sound.of_run hrun hd).nodup_ids⟩

/-- Four vectors and a pushed segment end up in one segment, by a cascade of merges. -/
theorem observer_holds_levels_cascade :
    ∃ st, (Index.create (lineRuntime Nat (· + 2)) (unitConfig true) true 0).run
        (lineRuntime Nat (· + 2)) [.push foreignSegment foreignSegment_wf,
          .add [(1, 10), (2, 20), (3, 30), (4, 40)], .erase [3]] = .ok st ∧
      st.current.length = 1 ∧ ∃ coll, observed st.calls = some coll ∧
        coll.Perm (st.current.map st.idOf) ∧ coll.Nodup := by
  obtain ⟨st, hrun, hlevels⟩ : ∃ st, (Index.create (lineRuntime Nat (· + 2)) (unitConfig true)
      true 0).run (lineRuntime Nat (· + 2)) [.push foreignSegment foreignSegment_wf,
        .add [(1, 10), (2, 20), (3, 30), (4, 40)], .erase [3]] = .ok st ∧
          st.current.length = 1 := exists_ok (by decide +kernel)
  refine ⟨st, hrun, hlevels, observer_holds_levels _ _ _ _ st hrun ⟨?_, ?_, ?_⟩⟩
  · intro m _ n _ heq
    exact Nat.add_right_cancel heq
  · decide
  · intro id hid n _ heq
    obtain rfl : id = 1 := List.mem_singleton.mp hid
    exact absurd heq (by simp [lineRuntime])

end Vecodex
