import Vecodex.Laws.Base
import Vecodex.Laws.Shape

/-!
# A search visits every current segment

A merge removes references from `segments` by id: the first segment that carries a retired id
goes. When ids collide that can be a segment the levels still hold, and a search no longer sees
its vectors (`collision_loses_vectors`).

`HarmlessDrops` says of the trace of an index that no removal took the only reference to a segment
of the levels. Where it holds, the levels stay among the visited segments (`Visited.step`).

What a merge finds decides whether its removals are harmless. When nothing fits its amount, it
removes nothing. Otherwise every id it retires is one that a segment of the levels carries at the
start, or one it draws on the way, and it joins at most as often as there are segments but one. So
it is enough that these ids are distinct (`Index.ClearToMerge`): a join moves them around among the
levels, the retired ids and the ids to be drawn (`Apart.step`). A history all of whose merges start
that way loses no vector (`live_vectors_visited`).
-/

namespace Vecodex

open Lib

variable {B ID Vec Dist : Type}

/-- A removal that did not take the only reference to a segment of the levels. -/
def MergeEvent.Harmless : MergeEvent B ID → Prop
  | .joined _ _ => True
  | .dropped p left current => p ∈ current → p ∈ left

instance : DecidablePred (MergeEvent.Harmless : MergeEvent B ID → Prop)
  | .joined _ _ => .isTrue trivial
  | .dropped p left current => inferInstanceAs (Decidable (p ∈ current → p ∈ left))

/-- No removal took the only reference to a segment of the levels. -/
def HarmlessDrops (trace : List (MergeEvent B ID)) : Prop := ∀ e ∈ trace, e.Harmless

instance (trace : List (MergeEvent B ID)) : Decidable (HarmlessDrops trace) :=
  inferInstanceAs (Decidable (∀ e ∈ trace, e.Harmless))

/-- The segments of the levels are among the visited ones. -/
def Visited (w : Work B ID) : Prop := ∀ p ∈ w.index.current, p ∈ w.index.segments

theorem Visited.create (rt : Runtime B ID Vec Dist) (config : IndexConfig) (callback : Bool)
    (draws : Nat) : Visited (Index.create rt config callback draws : Index B ID).rest := by
  intro p hp
  cases hp

theorem HarmlessDrops.mono {trace trace' : List (MergeEvent B ID)} (h : HarmlessDrops trace')
    (hpre : trace <+: trace') : HarmlessDrops trace :=
  fun e hmem => h e (hpre.subset hmem)

/-- Harmless removals leave every current segment in the list. -/
theorem foldl_dropId_visited (idx : Index B ID) (ids : List Nat)
    (hvis : ∀ p ∈ idx.current, p ∈ idx.segments)
    (hdrops : HarmlessDrops (ids.foldl Index.dropId idx).trace) :
    ∀ p ∈ idx.current, p ∈ (ids.foldl Index.dropId idx).segments := by
  induction ids generalizing idx with
  | nil => exact hvis
  | cons id ids ih =>
    rw [List.foldl_cons] at hdrops ⊢
    rcases idx.dropId_cases id with ⟨-, hsame⟩ | ⟨p, left, -, hperm, -, hdrop⟩
    · rw [hsame] at hdrops ⊢
      exact ih idx hvis hdrops
    · rw [hdrop] at hdrops ⊢
      refine ih _ (fun q hq => ?_) hdrops
      rcases List.mem_cons.mp (hperm.mem_iff.mp (hvis q hq)) with rfl | hleft
      · obtain ⟨segments, trace, heq, -, hpre⟩ := Index.foldl_dropId_eq { idx with
          segments := left
          trace := idx.trace ++ [.dropped q left idx.current] } ids
        rw [heq] at hdrops
        exact hdrops (.dropped q left idx.current)
          (hpre.subset (List.mem_append_right _ List.mem_cons_self)) hq
      · exact hleft

/-- The events of the removals name segments under retired ids. -/
theorem mem_trace_foldl_dropId {idx : Index B ID} {ids : List Nat} {e : MergeEvent B ID}
    (he : e ∈ (ids.foldl Index.dropId idx).trace) :
    e ∈ idx.trace ∨ ∃ p left, e = .dropped p left idx.current ∧ idx.idOf p ∈ ids := by
  induction ids generalizing idx with
  | nil => exact Or.inl he
  | cons id ids ih =>
    rw [List.foldl_cons] at he
    rcases idx.dropId_cases id with ⟨-, hsame⟩ | ⟨p, left, hid, -, -, hdrop⟩
    · rw [hsame] at he
      rcases ih he with h | ⟨p, left, rfl, hp⟩
      · exact Or.inl h
      · exact Or.inr ⟨p, left, rfl, List.mem_cons_of_mem _ hp⟩
    · rw [hdrop] at he
      rcases ih he with h | ⟨q, left', rfl, hq⟩
      · rcases List.mem_append.mp h with h | h
        · exact Or.inl h
        · rw [List.mem_singleton.mp h]
          exact Or.inr ⟨p, left, rfl, hid ▸ List.mem_cons_self⟩
      · exact Or.inr ⟨q, left', rfl, List.mem_cons_of_mem _ hq⟩

/-- When no segment of the levels carries a retired id, the end of a pass is harmless. -/
theorem HarmlessDrops.finishPass {idx : Index B ID} {erased : List Nat} (inserted : List Nat)
    (h : HarmlessDrops idx.trace) (hgone : ∀ id ∈ erased, ∀ p ∈ idx.current, idx.idOf p ≠ id) :
    HarmlessDrops (idx.finishPass erased inserted).trace := by
  intro e he
  rw [(idx.finishPass_drops erased inserted).2] at he
  rcases mem_trace_foldl_dropId he with he | ⟨p, left, rfl, hid⟩
  · exact h e he
  · exact fun hp => absurd rfl (hgone _ hid p hp)

variable [DecidableEq ID]

/-- The trace of an index only grows. -/
theorem Step.trace_prefix {rt : Runtime B ID Vec Dist} {changes : List (Change B ID Vec)}
    {w w' : Work B ID} (hstep : Step rt changes w w') : w.index.trace <+: w'.index.trace := by
  cases hstep with
  | append _ rows => exact List.prefix_refl _
  | sealLast _ idle full stored =>
    obtain ⟨levels, -, rfl⟩ := Index.storageAdd_eq_ok stored
    exact List.prefix_refl _
  | report =>
    obtain ⟨calls, hcalls⟩ := w.index.notify_eq [] w.fresh
    rw [hcalls]
  | merge hmerge =>
    cases hmerge with
    | join j reported left right kinds => exact List.prefix_append _ _
    | finish =>
      obtain ⟨segments, trace, calls, heq, -, hpre⟩ := w.index.finishPass_eq w.erased w.inserted
      rw [heq]
      exact hpre
    | compact idle => exact List.prefix_refl _
  | elsewhere _ n => exact List.prefix_refl _
  | erase _ ids => exact List.prefix_refl _
  | push _ wf idle stored =>
    obtain ⟨levels, -, rfl⟩ := Index.pushSegment_eq_ok stored
    exact List.prefix_refl _

/-- Values of `rand()` are never given back. -/
theorem Step.draws_le {rt : Runtime B ID Vec Dist} {changes : List (Change B ID Vec)}
    {w w' : Work B ID} (hstep : Step rt changes w w') : w.index.draws ≤ w'.index.draws := by
  cases hstep with
  | append _ rows => exact Nat.le_refl _
  | sealLast _ idle full stored =>
    obtain ⟨levels, -, rfl⟩ := Index.storageAdd_eq_ok stored
    exact Nat.le_succ _
  | report =>
    obtain ⟨calls, hcalls⟩ := w.index.notify_eq [] w.fresh
    rw [hcalls]
  | merge hmerge =>
    cases hmerge with
    | join j reported left right kinds => exact Nat.le_succ _
    | finish =>
      obtain ⟨segments, trace, calls, heq, -, -⟩ := w.index.finishPass_eq w.erased w.inserted
      rw [heq]
    | compact idle => exact Nat.le_refl _
  | elsewhere _ n => exact Nat.le_add_right _ n
  | erase _ ids => exact Nat.le_refl _
  | push _ wf idle stored =>
    obtain ⟨levels, -, rfl⟩ := Index.pushSegment_eq_ok stored
    exact Nat.le_refl _

theorem trace_prefix_of_runs {rt : Runtime B ID Vec Dist} {changes : List (Change B ID Vec)}
    {w w' : Work B ID} (hruns : Runs (Step rt) changes w w') : w.index.trace <+: w'.index.trace :=
  hruns.invariant (P := fun _ u => w.index.trace <+: u.index.trace)
    (fun _ _ _ _ hu hstep => hu.trans hstep.trace_prefix) (List.prefix_refl _)

theorem draws_le_of_runs {rt : Runtime B ID Vec Dist} {changes : List (Change B ID Vec)}
    {w w' : Work B ID} (hruns : Runs (Step rt) changes w w') : w.index.draws ≤ w'.index.draws :=
  hruns.invariant (P := fun _ u => w.index.draws ≤ u.index.draws)
    (fun _ _ _ _ hu hstep => hu.trans hstep.draws_le) (Nat.le_refl _)

namespace Visited

variable {rt : Runtime B ID Vec Dist} {w : Work B ID}

/-- While removals are harmless, every step keeps the current segments visited. -/
theorem step (hshape : Shape w) (h : Visited w) {changes : List (Change B ID Vec)}
    {w' : Work B ID} (hstep : Step rt changes w w') (hdrops : HarmlessDrops w'.index.trace) :
    Visited w' := by
  cases hstep with
  | append _ rows => exact h
  | sealLast _ idle full stored =>
    obtain ⟨levels, hperm, rfl⟩ := Index.storageAdd_eq_ok stored
    intro p hp
    show p ∈ w.index.segments ++ [w.index.last]
    rcases List.mem_cons.mp (hperm.mem_iff.mp hp) with rfl | hp
    · exact List.mem_append_right _ List.mem_cons_self
    · exact List.mem_append_left _ (h p hp)
  | report =>
    obtain ⟨calls, hcalls⟩ := w.index.notify_eq [] w.fresh
    rw [hcalls]
    exact h
  | merge hmerge =>
    cases hmerge with
    | join j reported left right kinds =>
      obtain ⟨hperm, -⟩ := hshape.join_cells rt left right
      exact fun p hp => h p (hperm.mem_iff.mpr (List.mem_cons_of_mem _ hp))
    | finish =>
      obtain ⟨hsegments, htrace⟩ := w.index.finishPass_drops w.erased w.inserted
      have hvis := foldl_dropId_visited { w.index with segments := w.index.segments ++ w.inserted }
        w.erased (fun p hp => List.mem_append_left _ (h p hp)) (htrace ▸ hdrops)
      obtain ⟨segments, trace, calls, heq, -, -⟩ := w.index.finishPass_eq w.erased w.inserted
      intro p hp
      rw [heq] at hp
      show p ∈ (w.index.finishPass w.erased w.inserted).segments
      rw [hsegments]
      exact hvis p hp
    | compact idle =>
      have hsame : w.index.compactLevels.current = w.index.current := w.index.current_compactLevels
      intro p hp
      exact h p (hsame ▸ hp)
  | elsewhere _ n => exact h
  | erase _ ids => exact h
  | push _ wf idle stored =>
    intro p hp
    have hcases := (Index.mem_pushSegment_current stored).mp hp
    obtain ⟨levels, -, rfl⟩ := Index.pushSegment_eq_ok stored
    rcases hcases with hp | rfl
    · exact List.mem_append_left _ (h p hp)
    · exact List.mem_append_right _ List.mem_cons_self

/-- A run whose removals are all harmless keeps the current segments visited. -/
theorem of_runs (hshape : Shape w) (h : Visited w) {changes : List (Change B ID Vec)}
    {w' : Work B ID} (hruns : Runs (Step rt) changes w w')
    (hdrops : HarmlessDrops w'.index.trace) : Visited w' := by
  have hinv := hruns.invariant
    (P := fun _ u => Shape u ∧ (HarmlessDrops u.index.trace → Visited u)) ?_
    ⟨hshape, fun _ => h⟩
  · exact hinv.2 hdrops
  · intro _ _ u v hu hstep
    exact ⟨hu.1.step hstep, fun hdrops =>
      Visited.step hu.1 (hu.2 (hdrops.mono hstep.trace_prefix)) hstep hdrops⟩

end Visited

/-! ## Ids that a merge can retire -/

namespace Index

/-- The values that `rand()` gives to the next joins; every join takes a segment from the levels. -/
def nextIds (rt : Runtime B ID Vec Dist) (idx : Index B ID) : List Nat :=
  (List.range' idx.draws (idx.current.length - 1)).map rt.rand

/-- There is nothing to join, or the ids of the segments in the levels and those of the next joins
are pairwise distinct. -/
def ClearToMerge (rt : Runtime B ID Vec Dist) (idx : Index B ID) (amount : Nat) : Prop :=
  idx.NoneFits amount ∨ (idx.current.map idx.idOf ++ idx.nextIds rt).Nodup

end Index

/-- In the middle of a merge: the ids of the levels, the retired ones and those of the next joins
are pairwise distinct. -/
def Apart (rt : Runtime B ID Vec Dist) (w : Work B ID) : Prop :=
  (w.index.current.map w.index.idOf ++ w.erased ++ w.index.nextIds rt).Nodup

namespace Apart

variable {rt : Runtime B ID Vec Dist} {w w' : Work B ID}

omit [DecidableEq ID] in
/-- No segment of the levels carries a retired id. -/
theorem retired (h : Apart rt w) {id p : Nat} (hid : id ∈ w.erased) (hp : p ∈ w.index.current) :
    w.index.idOf p ≠ id := by
  have hdisjoint := (List.nodup_append.mp (List.nodup_append.mp h).1).2.2
  exact hdisjoint _ (List.mem_map_of_mem hp) id hid

/-- A join moves the ids: those of the pair are retired, and the survivor takes the next one. -/
theorem join (h : Apart rt w) (hshape : Shape w) {j a b : Nat}
    (left : w.index.levels.cell w.level j = some a)
    (right : w.index.levels.cell w.level (j + 1) = some b) :
    Apart rt { w with
      index := w.index.join rt w.level j a b
      erased := w.erased ++ [w.index.idOf b, w.index.idOf a]
      inserted := w.inserted ++ [a] } := by
  obtain ⟨hperm, -, ha, -⟩ := hshape.join_cells rt left right
  have hsplit := List.perm_cons_erase ha
  generalize (w.index.join rt w.level j a b).current.erase a = others at hsplit
  have hothers : ∀ p ∈ others, p ≠ a := by
    have hnodup := (List.nodup_cons.mp (hperm.nodup_iff.mp hshape.nodup)).2
    rintro p hp rfl
    exact (List.nodup_cons.mp (hsplit.nodup_iff.mp hnodup)).1 hp
  have hbefore : (w.index.current.map w.index.idOf).Perm
      (w.index.idOf b :: w.index.idOf a :: others.map w.index.idOf) :=
    (hperm.trans (hsplit.cons b)).map _
  have hafter : ((w.index.join rt w.level j a b).current.map
      (w.index.join rt w.level j a b).idOf).Perm
        (rt.rand w.index.draws :: others.map w.index.idOf) := by
    refine (hsplit.map _).trans (.of_eq ?_)
    rw [List.map_cons, Index.join_idOf, if_pos rfl]
    refine congrArg _ (List.map_congr_left fun p hp => ?_)
    rw [Index.join_idOf, if_neg (hothers p hp)]
  have hnext : w.index.nextIds rt =
      rt.rand w.index.draws :: (w.index.join rt w.level j a b).nextIds rt := by
    have hlength := hperm.length_eq
    have hpos := List.length_pos_of_mem ha
    rw [List.length_cons] at hlength
    unfold Index.nextIds
    rw [show w.index.current.length - 1 =
      (w.index.join rt w.level j a b).current.length - 1 + 1 by omega, List.range'_succ]
    rfl
  refine (List.Perm.nodup_iff ?_).mpr h
  rw [hnext]
  refine List.perm_iff_count.mpr fun id => ?_
  simp only [List.count_append, List.count_cons, List.count_nil, hbefore.count_eq, hafter.count_eq]
  omega

theorem step (h : Apart rt w) (hshape : Shape w) (hstep : MergeStep rt w w') : Apart rt w' := by
  cases hstep with
  | join j reported left right kinds => exact h.join hshape left right
  | finish =>
    obtain ⟨segments, trace, calls, heq, -, -⟩ := w.index.finishPass_eq w.erased w.inserted
    rw [heq]
    refine h.sublist (List.Sublist.append_right ?_ _)
    rw [List.append_nil]
    exact List.sublist_append_left _ _
  | compact idle =>
    have hsame : w.index.compactLevels.current = w.index.current := w.index.current_compactLevels
    unfold Apart Index.nextIds at h ⊢
    rwa [← hsame] at h

/-- The removals of a merge between distinct ids are harmless. -/
theorem steps (h : Apart rt w) (hshape : Shape w) (hdrops : HarmlessDrops w.index.trace)
    (hsteps : Relation.ReflTransGen (MergeStep rt) w w') : HarmlessDrops w'.index.trace := by
  suffices hall : Shape w' ∧ Apart rt w' ∧ HarmlessDrops w'.index.trace from hall.2.2
  induction hsteps with
  | refl => exact ⟨hshape, h, hdrops⟩
  | tail _ hstep ih =>
    obtain ⟨hshape, h, hdrops⟩ := ih
    refine ⟨hshape.step (.merge hstep : Step rt [] _ _), h.step hshape hstep, ?_⟩
    cases hstep with
    | join j reported left right kinds =>
      intro e he
      rcases List.mem_append.mp he with he | he
      · exact hdrops e he
      · rw [List.mem_singleton.mp he]
        trivial
    | finish => exact hdrops.finishPass _ fun id hid p hp => h.retired hid hp
    | compact idle => exact hdrops

end Apart

/-! ## Histories -/

namespace Index

variable {rt : Runtime B ID Vec Dist} {idx : Index B ID}

theorem ClearToMerge.harmless {amount : Nat} (h : idx.ClearToMerge rt amount)
    (hshape : Shape idx.rest) (hdrops : HarmlessDrops idx.trace) {idx' : Index B ID}
    (hmerge : idx.merge rt amount = .ok idx') : HarmlessDrops idx'.trace := by
  rcases h with hnone | hnodup
  · rw [hnone.merge] at hmerge
    cases hmerge
    exact hdrops
  · have hapart : Apart rt idx.rest := by
      rwa [Apart, show idx.rest.erased = [] from rfl, List.append_nil]
    exact hapart.steps hshape hdrops (merge_steps hmerge)

/-- When the call merges, the ids are clear at the start of the merge. -/
def ClearCall (rt : Runtime B ID Vec Dist) (idx : Index B ID) : Op B ID Vec → Prop
  | .add rows => idx.config.enableMerge = true → ∀ filled, idx.fill rt rows = .ok filled →
    filled.ClearToMerge rt 200
  | _ => True

/-- `add` leaves the trace alone until it merges. -/
theorem addLoop_trace {fuel : Nat} {idx' : Index B ID} {inserted inserted' : List Nat}
    {rows : List (ID × Vec)} (h : idx.addLoop rt fuel inserted rows = .ok (idx', inserted')) :
    idx'.trace = idx.trace := by
  induction fuel generalizing idx inserted rows with
  | zero =>
    cases rows with
    | nil =>
      cases h
      rfl
    | cons row rows => cases h
  | succ fuel ih =>
    cases rows with
    | nil =>
      cases h
      rfl
    | cons row rows =>
      obtain ⟨batch, filled, -, -, rfl, hround⟩ := Index.addLoop_round h
      rcases hround with ⟨-, st, hst, hrest⟩ | ⟨-, hrest⟩
      · have htail := ih hrest
        obtain ⟨levels, -, rfl⟩ := Index.storageAdd_eq_ok hst
        exact htail
      · have htail := ih hrest
        exact htail

theorem fill_trace {filled : Index B ID} {rows : List (ID × Vec)}
    (h : idx.fill rt rows = .ok filled) : filled.trace = idx.trace := by
  obtain ⟨⟨looped, inserted⟩, hloop, hnotify⟩ := bind_eq_ok.mp h
  have htrace := addLoop_trace hloop
  cases hnotify
  obtain ⟨calls, hcalls⟩ := looped.notify_eq [] inserted
  split
  · rw [hcalls]
    exact htrace
  · exact htrace

theorem ClearCall.harmless {op : Op B ID Vec} {next : Index B ID} (h : idx.ClearCall rt op)
    (hshape : Shape idx.rest) (hdrops : HarmlessDrops idx.trace)
    (hnext : idx.exec rt op = .ok next) : HarmlessDrops next.trace := by
  cases op with
  | add rows =>
    obtain ⟨filled, hfill, hmerge⟩ := bind_eq_ok.mp hnext
    rw [← fill_trace hfill] at hdrops
    split at hmerge
    · next hon =>
      rw [fill_config hfill] at hon
      have hclear := h hon filled hfill
      exact hclear.harmless (hshape.of_runs (fill_runs hfill)) hdrops hmerge
    · cases hmerge
      exact hdrops
  | erase ids =>
    cases hnext
    exact hdrops
  | push segment wf =>
    obtain ⟨levels, -, rfl⟩ := pushSegment_eq_ok hnext
    exact hdrops
  | eraseSegment id =>
    rw [Index.exec, eraseSegment_same] at hnext
    cases hnext
    exact hdrops

end Index

/-- When every merge of a history starts with clear ids, no removal takes the only reference to a
segment of the levels, and the live vectors of the levels and of the open segment are all in
segments a search visits. -/
theorem live_vectors_visited (rt : Runtime B ID Vec Dist) (config : IndexConfig) (callback : Bool)
    (draws : Nat) (ops : List (Op B ID Vec)) (st : Index B ID)
    (hrun : (Index.create rt config callback draws).run rt ops = .ok st)
    (hclear : Meets (Index.exec rt) (Index.ClearCall rt) (.create rt config callback draws) ops) :
    HarmlessDrops st.trace ∧ (∀ p ∈ st.current, p ∈ st.segments) ∧
      ∀ p, p ∈ st.current ∨ p = st.last → ∀ x v, (x, v) ∈ (st.seg p).index.survivors rt →
        ∃ q ∈ st.visited, (x, v) ∈ (st.seg q).index.survivors rt := by
  have hshape : Shape (Index.create rt config callback draws).rest :=
    .create rt config callback draws
  have hdrops : Shape st.rest ∧ HarmlessDrops st.trace :=
    hclear.preserves (P := fun idx => Shape idx.rest ∧ HarmlessDrops idx.trace)
      (fun _ _ _ hcall h hexec =>
        ⟨h.1.of_runs (Index.exec_runs hexec), hcall.harmless h.1 h.2 hexec⟩)
      ⟨hshape, fun e he => by cases he⟩ hrun
  have hvis : Visited st.rest := Visited.of_runs hshape
    (Visited.create rt config callback draws) (Index.run_runs hrun) hdrops.2
  refine ⟨hdrops.2, hvis, fun p hp x v hlive => ⟨p, ?_, hlive⟩⟩
  rw [Index.mem_visited]
  exact hp.imp_left (hvis p)

/-- Five points in a segment under the id 1. -/
def foreignSegment : Segment (List Nat) Nat :=
  { segId := 1
    index := (FaissIndex.create (lineRuntime Nat id) .flat).addBatch (lineRuntime Nat id)
      [(11, 1), (12, 2), (13, 3), (14, 4), (15, 5)] }

theorem foreignSegment_wf : foreignSegment.index.Wf :=
  (FaissIndex.wf_create _ _).addBatch _ _

/-- An index that seals every vector at once. -/
def unitConfig (enableMerge : Bool) : IndexConfig where
  segmentThreshold := 1
  threshold_pos := Nat.one_pos
  threshold_int := Nat.le_of_ble_eq_true rfl
  enableMerge := enableMerge
  kind := .flat

/-- The second sealed segment gets the id of the pushed one. When it is absorbed, the lookup of
its id finds the pushed segment, which the levels still hold. -/
theorem collision_loses_vectors :
    ∃ st, (Index.create (lineRuntime Nat id) (unitConfig true) false 0).run (lineRuntime Nat id)
        [.push foreignSegment foreignSegment_wf, .add [(1, 10), (2, 20)]] = .ok st ∧
      ∃ p ∈ st.current, p ∉ st.segments ∧
        ∃ e ∈ (st.seg p).index.survivors (lineRuntime Nat id),
          ∀ q ∈ st.visited, e ∉ (st.seg q).index.survivors (lineRuntime Nat id) :=
  exists_ok (by decide +kernel)

/-- Without a collision the same calls lose nothing. -/
theorem live_vectors_visited_pushed :
    ∃ st, (Index.create (lineRuntime Nat (· + 2)) (unitConfig true) false 0).run
        (lineRuntime Nat (· + 2))
        [.push foreignSegment foreignSegment_wf, .add [(1, 10), (2, 20)]] = .ok st ∧
      st.trace ≠ [] ∧ HarmlessDrops st.trace ∧ (∀ p ∈ st.current, p ∈ st.segments) ∧
      ∀ p, p ∈ st.current ∨ p = st.last →
        ∀ x v, (x, v) ∈ (st.seg p).index.survivors (lineRuntime Nat (· + 2)) →
          ∃ q ∈ st.visited, (x, v) ∈ (st.seg q).index.survivors (lineRuntime Nat (· + 2)) := by
  obtain ⟨st, hrun, htrace⟩ : ∃ st, (Index.create (lineRuntime Nat (· + 2)) (unitConfig true)
      false 0).run (lineRuntime Nat (· + 2))
      [.push foreignSegment foreignSegment_wf, .add [(1, 10), (2, 20)]] = .ok st ∧
        st.trace.length ≠ 0 := exists_ok (by decide +kernel)
  refine ⟨st, hrun, fun hnil => htrace (congrArg List.length hnil),
    live_vectors_visited _ _ _ _ _ st hrun ?_⟩
  refine meets_cons.mpr ⟨trivial, fun mid hmid => meets_cons.mpr
    ⟨fun _ filled hfilled => Or.inr ?_, fun _ _ => meets_nil _ _ _⟩⟩
  obtain ⟨filled', hboth, hnodup⟩ : ∃ filled', ((Index.create (lineRuntime Nat (· + 2))
      (unitConfig true) false 0).exec (lineRuntime Nat (· + 2))
      (.push foreignSegment foreignSegment_wf) >>=
        fun mid => mid.fill (lineRuntime Nat (· + 2)) [(1, 10), (2, 20)]) = .ok filled' ∧
      (filled'.current.map filled'.idOf ++ filled'.nextIds (lineRuntime Nat (· + 2))).Nodup :=
    exists_ok (by decide +kernel)
  rw [hmid, ok_bind, hfilled] at hboth
  cases hboth
  exact hnodup

end Vecodex
