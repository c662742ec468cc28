import Vecodex.Laws.Documents
import Vecodex.Laws.Search
import Vecodex.Laws.Total

/-!
# Deletion

`erase` marks, in every visited segment, the position `ids_` holds for an id. A segment can have
more live positions of the id: an id added twice within one segment, or copies of it merged into
one. These stay live, and a search returns the id although it was erased
(`erase_leaves_copy`).

`Reaches` says that an erase finds every live position of an id. Exactly then the id is gone for
good: no search returns it until it is added again (`erase_complete_iff`).
-/

namespace Vecodex

open Lib

variable {B ID Vec Dist : Type}

section Copies

variable [DecidableEq ID]

/-- Every live position of `x` is in a visited segment and is the one `ids_` holds there. -/
def Index.Reaches (st : Index B ID) (x : ID) : Prop :=
  ∀ p, p ∈ st.visited ∨ p ∈ st.current → ∀ pos, (st.seg p).index.LiveAt pos x →
    p ∈ st.visited ∧ (st.seg p).index.ids.lookup x = some pos

instance (st : Index B ID) (x : ID) : Decidable (st.Reaches x) :=
  decidable_of_iff (∀ p ∈ st.visited ++ st.current, ∀ e ∈ (st.seg p).index.invIds.entries,
      e.2 = x → e.1 ∉ (st.seg p).index.erased →
        p ∈ st.visited ∧ (st.seg p).index.ids.lookup x = some e.1)
    ⟨fun h p hp pos hlive => h p (List.mem_append.mpr hp) ⟨pos, x⟩
        (FaissIndex.liveAt_iff.mp hlive).1 rfl hlive.2,
      fun h p hp e he hx hlive => h p (List.mem_append.mp hp) e.1
        (FaissIndex.liveAt_iff.mpr ⟨hx ▸ he, hlive⟩)⟩

/-! ## An id without live copies -/

/-- The change does not bring `x`. -/
def Change.Avoids (x : ID) : Change B ID Vec → Prop
  | .put y _ => y ≠ x
  | .drop _ => True
  | .push segment => ¬ segment.index.LiveId x

/-- No segment a search can ever visit again has a live copy of `x`. -/
def NoCopy (x : ID) (w : Work B ID) : Prop :=
  ∀ p, p ∈ w.index.visited ∨ p ∈ w.index.current → ¬ (w.index.seg p).index.LiveId x

instance (x : ID) (w : Work B ID) : Decidable (NoCopy x w) :=
  decidable_of_iff (∀ p ∈ w.index.visited ++ w.index.current, ¬ (w.index.seg p).index.LiveId x)
    ⟨fun h p hp => h p (List.mem_append.mpr hp), fun h p hp => h p (List.mem_append.mp hp)⟩

namespace NoCopy

variable {rt : Runtime B ID Vec Dist} {w : Work B ID} {x : ID}

section Steps

variable (h : NoCopy x w) (hshape : Shape w)
include h hshape

theorem append {rows : List (ID × Vec)} (havoid : x ∉ rows.map Prod.fst) :
    NoCopy x { w with index := w.index.appendLast rt rows } := by
  intro p hp hlive
  replace hlive : ((w.index.appendLast rt rows).seg p).index.LiveId x := hlive
  rw [Index.appendLast_seg] at hlive
  split at hlive
  · rcases (FaissIndex.addBatch_liveId (hshape.wf p) rt rows x).mp hlive with hlive | hmem
    · exact h p hp hlive
    · exact havoid hmem
  · exact h p hp hlive

omit hshape [DecidableEq ID] in
/-- The segment that is opened is empty, and the sealed one was visited before. -/
theorem sealLast {idx : Index B ID} (stored : w.index.storageAdd w.index.last = .ok idx) :
    NoCopy x { w with index := idx.openNext rt, fresh := w.fresh ++ [w.index.last] } := by
  intro p hp hlive
  replace hlive : ((Index.openNext rt _).seg p).index.LiveId x := hlive
  rw [Index.openNext_seg stored] at hlive
  split at hlive
  · obtain ⟨pos, hpos⟩ := hlive
    exact FaissIndex.not_liveAt_create rt _ pos x hpos
  · next hne =>
    refine h p ?_ hlive
    rcases hp with hp | hp
    · exact Or.inl (((Index.mem_openNext_visited stored).mp hp).resolve_right hne)
    · rcases (Index.mem_openNext_current stored).mp hp with hp | rfl
      · exact Or.inr hp
      · exact Or.inl (Index.mem_visited.mpr (Or.inr rfl))

/-- The survivor of a join has the live ids of both segments. -/
theorem join {j a b : Nat} (left : w.index.levels.cell w.level j = some a)
    (right : w.index.levels.cell w.level (j + 1) = some b) {p : Nat}
    (hp : p ∈ w.index.visited ∨ p ∈ (w.index.join rt w.level j a b).current) :
    ¬ ((w.index.join rt w.level j a b).seg p).index.LiveId x := by
  intro hlive
  obtain ⟨hperm, -⟩ := hshape.join_cells rt left right
  have hold : p ∈ w.index.visited ∨ p ∈ w.index.current :=
    hp.imp_right fun hp => hperm.mem_iff.mpr (List.mem_cons_of_mem _ hp)
  rw [Index.join_seg] at hlive
  split at hlive
  · rcases (FaissIndex.addBatch_liveId (hshape.wf _) rt _ x).mp hlive with hlive | hmem
    · exact h _ (Or.inr (Index.mem_current_of_cell left)) hlive
    · exact h _ (Or.inr (Index.mem_current_of_cell right))
        ((FaissIndex.mem_survivors_ids rt _ x).mp hmem)
  · exact h p hold hlive

theorem finish {p : Nat}
    (hp : p ∈ (w.index.finishPass w.erased w.inserted).visited ∨
      p ∈ (w.index.finishPass w.erased w.inserted).current) :
    ¬ ((w.index.finishPass w.erased w.inserted).seg p).index.LiveId x := by
  have hold := hp.imp_left hshape.visited_finishPass
  obtain ⟨segments, trace, calls, heq, -, -⟩ := w.index.finishPass_eq w.erased w.inserted
  rw [heq] at hold ⊢
  apply h p
  rcases hold with hp | hp
  · exact hp
  · exact Or.inr hp

theorem erase (ids : List ID) : NoCopy x { w with index := w.index.erase ids } := by
  intro p hp hlive
  replace hlive : ((w.index.erase ids).seg p).index.LiveId x := hlive
  rw [Index.erase_seg] at hlive
  split at hlive
  · obtain ⟨pos, hpos⟩ := hlive
    exact h p hp ⟨pos, ((FaissIndex.eraseBatch_liveAt (hshape.wf p) ids pos x).mp hpos).1⟩
  · exact h p hp hlive

omit hshape [DecidableEq ID] in
theorem push {segment : Segment B ID} (havoid : ¬ segment.index.LiveId x) {idx : Index B ID}
    (stored : w.index.pushSegment segment = .ok idx) : NoCopy x { w with index := idx } := by
  intro p hp hlive
  rw [Index.pushSegment_seg stored] at hlive
  split at hlive
  · exact havoid hlive
  · next hne =>
    refine h p ?_ hlive
    rcases hp with hp | hp
    · exact Or.inl (((Index.mem_pushSegment_visited stored).mp hp).resolve_right hne)
    · exact Or.inr (((Index.mem_pushSegment_current stored).mp hp).resolve_right hne)

/-- What brings no new copy, brings none back. -/
theorem step {changes : List (Change B ID Vec)} {w' : Work B ID} (hstep : Step rt changes w w')
    (havoid : ∀ c ∈ changes, c.Avoids x) : NoCopy x w' := by
  cases hstep with
  | append _ rows =>
    refine h.append hshape fun hmem => ?_
    obtain ⟨r, hr, rfl⟩ := List.mem_map.mp hmem
    exact havoid _ (List.mem_map_of_mem hr) rfl
  | sealLast _ idle full stored => exact h.sealLast stored
  | report =>
    obtain ⟨calls, hcalls⟩ := w.index.notify_eq [] w.fresh
    rw [hcalls]
    exact h
  | merge hmerge =>
    cases hmerge with
    | join j reported left right kinds => exact fun p hp => h.join hshape left right hp
    | finish => exact fun p hp => h.finish hshape hp
    | compact idle =>
      have hsame : w.index.compactLevels.current = w.index.current :=
        w.index.current_compactLevels
      exact fun p hp => h p (hp.imp_right fun hp => hsame ▸ hp)
  | elsewhere _ n => exact h
  | erase _ ids => exact h.erase hshape ids
  | push _ wf idle stored => exact h.push (havoid _ List.mem_cons_self) stored

end Steps

theorem of_runs (h : NoCopy x w) (hshape : Shape w) {changes : List (Change B ID Vec)}
    {w' : Work B ID} (hruns : Runs (Step rt) changes w w') (havoid : ∀ c ∈ changes, c.Avoids x) :
    NoCopy x w' := by
  refine (hruns.invariant
    (P := fun ks u => Shape u ∧ ((∀ c ∈ ks, c.Avoids x) → NoCopy x u)) ?_ ⟨hshape, fun _ => h⟩).2
    havoid
  intro ks ls u v hu hstep
  refine ⟨hu.1.step hstep, fun havoid => ?_⟩
  rw [List.forall_mem_append] at havoid
  exact (hu.2 havoid.1).step hu.1 hstep havoid.2

end NoCopy

/-- A history avoids the ids it does not add. -/
theorem changes_avoid {x : ID} {edits : List (Edit ID Vec)}
    (h : x ∉ (addedRows edits).map Prod.fst) :
    ∀ c ∈ ((edits.map Edit.op).flatMap Op.changes : List (Change B ID Vec)), c.Avoids x := by
  intro c hc
  obtain ⟨op, hop, hc⟩ := List.mem_flatMap.mp hc
  obtain ⟨e, he, rfl⟩ := List.mem_map.mp hop
  cases e with
  | add rows =>
    obtain ⟨r, hr, rfl⟩ := List.mem_map.mp hc
    rintro rfl
    exact h (List.mem_map_of_mem (List.mem_flatMap.mpr ⟨_, he, hr⟩))
  | erase ids =>
    obtain rfl := List.mem_singleton.mp hc
    trivial

/-- An erase leaves no copy exactly when it finds every live position. -/
theorem Index.noCopy_erase_iff {st : Index B ID} (hshape : Shape st.rest) {x : ID} {ids : List ID}
    (hx : x ∈ ids) : NoCopy x (st.erase ids).rest ↔ st.Reaches x := by
  have hlive : ∀ p pos, ((st.erase ids).seg p).index.LiveAt pos x ↔
      (st.seg p).index.LiveAt pos x ∧
        ¬ (p ∈ st.visited ∧ (st.seg p).index.ids.lookup x = some pos) := by
    intro p pos
    have hwf : (st.seg p).index.Wf := hshape.wf p
    rw [Index.erase_seg]
    split
    · next hin =>
      rw [Segment.deleteBatch, FaissIndex.eraseBatch_liveAt hwf]
      simp [hx, hin]
    · next hout => simp [hout]
  constructor
  · intro h p hp pos hpos
    by_contra hmissed
    exact h p hp ⟨pos, (hlive p pos).mpr ⟨hpos, hmissed⟩⟩
  · rintro h p hp ⟨pos, hpos⟩
    obtain ⟨hpos, hmissed⟩ := (hlive p pos).mp hpos
    exact hmissed (h p hp pos hpos)

end Copies

/-! ## Histories -/

variable [LinearOrder ID] [LinearOrder Dist]

/-- After `erase ids`, no search returns `x` until a later call adds it. -/
def Index.Gone (rt : Runtime B ID Vec Dist) (st : Index B ID) (ids : List ID) (x : ID) : Prop :=
  ∀ (later : List (Edit ID Vec)) (st' : Index B ID), x ∉ (addedRows later).map Prod.fst →
    (st.erase ids).run rt (later.map Edit.op) = .ok st' →
    ∀ q k res, st'.search rt q k = .ok res → x ∉ res

theorem Index.Reaches.gone {rt : Runtime B ID Vec Dist} {st : Index B ID} (hshape : Shape st.rest)
    {x : ID} (h : st.Reaches x) {ids : List ID} (hx : x ∈ ids) : st.Gone rt ids x := by
  intro later st' hlater hrun q k res hsearch hmem
  have hnone := ((Index.noCopy_erase_iff hshape hx).mpr h).of_runs (hshape.erase ids)
    (Index.run_runs hrun) (changes_avoid hlater)
  obtain ⟨p, hp, hlive⟩ := Index.live_of_search hsearch hmem
  exact hnone p (Or.inl hp) hlive

/-- A copy an erase does not find is returned by the next search for enough results. -/
theorem Index.Gone.reaches {rt : Runtime B ID Vec Dist} {metric : Vec → Vec → Dist}
    (base : ExactBase rt.faiss metric) {st : Index B ID} (hshape : Shape st.rest)
    (halign : AlignedAll base.toStoringBase st.rest) (hvis : Visited st.rest) {ids : List ID}
    {x : ID} (h : st.Gone rt ids x) : st.Reaches x := by
  intro p hp pos hlive
  have hpv : p ∈ st.visited := by
    rcases hp with hp | hp
    · exact hp
    · exact Index.mem_visited.mpr (Or.inl (hvis p hp))
  refine ⟨hpv, ?_⟩
  by_contra hmissed
  have hcopy : ((st.erase ids).seg p).index.LiveId x := by
    rw [Index.erase_seg, if_pos hpv]
    exact ⟨pos, (FaissIndex.eraseBatch_liveAt (hshape.wf p) ids pos x).mpr
      ⟨hlive, fun hfound => hmissed hfound.2⟩⟩
  have herased : Step rt [.drop ids] st.rest (st.erase ids).rest := .erase st.rest ids
  have halign' : AlignedAll base.toStoringBase (st.erase ids).rest :=
    halign.step herased (fun segment hmem => by cases List.mem_singleton.mp hmem)
  obtain ⟨q, -⟩ := FaissIndex.LiveAt.exists_row base.toStoringBase (hshape.wf p) (halign p) hlive
  obtain ⟨k, res, hsearch, hmem⟩ :=
    Index.search_finds base (hshape.erase ids).wf halign' (p := p) hpv hcopy q
  exact h [] _ List.not_mem_nil rfl q k res hsearch hmem

omit [LinearOrder Dist] in
/-- Where every id is added only while it is not live, an erase reaches all copies. -/
theorem Documents.reaches {rt : Runtime B ID Vec Dist} {base : StoringBase rt.faiss}
    {live : List (ID × Vec)} {st : Index B ID} (h : Documents base live st.rest)
    (hvis : Visited st.rest) (x : ID) : st.Reaches x := by
  intro p hp pos hlive
  have hpv : p ∈ st.visited := by
    rcases hp with hp | hp
    · exact hp
    · exact Index.mem_visited.mpr (Or.inl (hvis p hp))
  exact ⟨hpv, h.unshadowed p hpv x pos hlive⟩

/-- After any history, an erased id is gone when the erase reaches all its live positions; and
only then, over an exact base index and with distinct values of `rand()`. -/
theorem erase_complete_iff (rt : Runtime B ID Vec Dist) (config : IndexConfig) (callback : Bool)
    (draws : Nat) (edits : List (Edit ID Vec)) (st : Index B ID)
    (hrun : (Index.create rt config callback draws).run rt (edits.map Edit.op) = .ok st)
    (ids : List ID) (x : ID) (hx : x ∈ ids) :
    (st.Reaches x → st.Gone rt ids x) ∧
      ∀ metric, ExactBase rt.faiss metric →
        (∀ m < st.draws, ∀ n < st.draws, rt.rand m = rt.rand n → m = n) →
        (st.Gone rt ids x ↔ st.Reaches x) := by
  have hshape : Shape st.rest :=
    (Shape.create rt config callback draws).of_runs (Index.run_runs hrun)
  refine ⟨fun h => h.gone hshape hx,
    fun metric base hrand => ⟨fun h => ?_, fun h => h.gone hshape hx⟩⟩
  have hsound := Sound.of_run hrun (distinctIds_of_edits hrand edits)
  exact h.reaches base hshape (AlignedAll.of_run base.toStoringBase hrun) hsound.visited

/-- The two copies of the id are merged into one segment. The erase finds the later one. -/
theorem erase_leaves_copy :
    ∃ st, (Index.create (lineRuntime Nat id) (unitConfig true) false 0).run (lineRuntime Nat id)
        [.add [(1, 10), (1, 20)], .erase [1]] = .ok st ∧
      st.search (lineRuntime Nat id) 0 1 = .ok [1] :=
  exists_ok (by decide +kernel)

/-- An id added again after it was erased, and erased once more, is gone. -/
theorem erase_complete_readded :
    ∃ st, (Index.create (lineRuntime Nat id) (unitConfig true) false 0).run (lineRuntime Nat id)
        [.add [(1, 10), (2, 20)], .erase [1], .add [(1, 30)]] = .ok st ∧
      st.Reaches 1 ∧ st.Gone (lineRuntime Nat id) [1] 1 := by
  let edits : List (Edit Nat Nat) := [.add [(1, 10), (2, 20)], .erase [1], .add [(1, 30)]]
  obtain ⟨st, hrun⟩ := Index.run_total (lineRuntime Nat id) (unitConfig true) false 0
    (show (addedRows edits).length < 2 ^ 62 by decide)
  obtain ⟨-, hvis, -, hdoc⟩ := Documents.of_run (flatBase_exact lineMetric).toStoringBase hrun
    (fun _ _ _ _ h => h) (by decide)
  refine ⟨st, hrun, hdoc.reaches hvis 1, ?_⟩
  exact (erase_complete_iff (lineRuntime Nat id) (unitConfig true) false 0 edits st hrun [1] 1
    List.mem_cons_self).1 (hdoc.reaches hvis 1)

/-! ## `eraseSegment` -/

omit [LinearOrder ID] in
/-- `eraseSegment` finds the segment when it is in the list. -/
theorem Index.eraseSegment_found {st : Index B ID} {id : Nat} :
    (st.eraseSegment id).1 = true ↔ ∃ p ∈ st.segments, st.idOf p = id := by
  unfold Index.eraseSegment
  split
  · next hnone =>
    rw [List.find?_eq_none] at hnone
    constructor
    · intro hfalse
      cases hfalse
    · rintro ⟨p, hp, hid⟩
      exact absurd (decide_eq_true hid) (hnone p hp)
  · next p hsome =>
    have hid := List.find?_some hsome
    exact ⟨fun _ => ⟨p, List.mem_of_find?_eq_some hsome, of_decide_eq_true hid⟩, fun _ => rfl⟩

/-- What `eraseSegment` is for: it reports whether a segment with the id is there, and when it
reports one, the segment is gone from both lists and from the searches. -/
structure Index.SegmentErased (rt : Runtime B ID Vec Dist) (st : Index B ID) (id : Nat) : Prop where
  reported : (st.eraseSegment id).1 = true ↔ ∃ p ∈ st.segments, st.idOf p = id
  removed : (st.eraseSegment id).1 = true → ∀ p, p ∈ (st.eraseSegment id).2.segments ∨
    p ∈ (st.eraseSegment id).2.current → (st.eraseSegment id).2.idOf p ≠ id
  others : (st.eraseSegment id).1 = true → ∀ p, st.idOf p ≠ id →
    (st.eraseSegment id).2.seg p = st.seg p ∧
      (p ∈ (st.eraseSegment id).2.segments ↔ p ∈ st.segments) ∧
      (p ∈ (st.eraseSegment id).2.current ↔ p ∈ st.current)
  unseen : (st.eraseSegment id).1 = true → ∀ q k res,
    (st.eraseSegment id).2.search rt q k = .ok res → ∀ x ∈ res,
      ∃ p ∈ st.visited, st.idOf p ≠ id ∧ (st.seg p).index.LiveId x
  absent : (st.eraseSegment id).1 = false → (st.eraseSegment id).2 = st

/-- In every state `eraseSegment` does what it is for exactly when there is nothing to do. -/
theorem eraseSegment_removes_iff (rt : Runtime B ID Vec Dist) (st : Index B ID) (id : Nat) :
    st.SegmentErased rt id ↔ ∀ p ∈ st.segments, st.idOf p ≠ id := by
  constructor
  · intro h p hp hid
    have hfound := Index.eraseSegment_found.mpr ⟨p, hp, hid⟩
    have hgone := h.removed hfound p
    rw [st.eraseSegment_same] at hgone
    exact hgone (Or.inl hp) hid
  · intro hnone
    have hfalse : ¬ (st.eraseSegment id).1 = true := fun hfound => by
      obtain ⟨p, hp, hid⟩ := Index.eraseSegment_found.mp hfound
      exact hnone p hp hid
    exact ⟨Index.eraseSegment_found, fun h => absurd h hfalse, fun h => absurd h hfalse,
      fun h => absurd h hfalse, fun _ => st.eraseSegment_same id⟩

/-- `eraseSegment` reports the segment, and it stays in both lists and in the answers. -/
theorem eraseSegment_keeps_segment :
    ∃ st, (Index.create (lineRuntime Nat id) (unitConfig true) false 0).run (lineRuntime Nat id)
        [.add [(1, 10)]] = .ok st ∧
      (st.eraseSegment 0).1 = true ∧
      (st.eraseSegment 0).2.segments.map (st.eraseSegment 0).2.idOf = [0] ∧
      (st.eraseSegment 0).2.current.map (st.eraseSegment 0).2.idOf = [0] ∧
      (st.eraseSegment 0).2.search (lineRuntime Nat id) 0 1 = .ok [1] :=
  exists_ok (by decide +kernel)

end Vecodex
