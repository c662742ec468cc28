import Mathlib.Logic.Function.Basic
import Vecodex.Laws.Visited

/-!
# Distinct segment ids

When the values drawn from `rand()` and the ids of the pushed segments are pairwise distinct,
segment objects have distinct ids at every moment, and an id a merge has
retired is not carried by a segment of the levels (`Ids`). The removals of a merge are then
harmless, so the levels stay visited.
-/

namespace Vecodex

open Lib

variable {B ID Vec Dist : Type}

/-- The first `draws` values of `rand()` are pairwise distinct. -/
def Runtime.Distinct (rt : Runtime B ID Vec Dist) (draws : Nat) : Prop :=
  ∀ m < draws, ∀ n < draws, rt.rand m = rt.rand n → m = n

theorem Runtime.Distinct.mono {rt : Runtime B ID Vec Dist} {draws draws' : Nat}
    (h : rt.Distinct draws') (hle : draws ≤ draws') : rt.Distinct draws :=
  fun m hm n hn => h m (by omega) n (by omega)

/-- The ids of the pushed segments. -/
def pushedIds (changes : List (Change B ID Vec)) : List Nat :=
  changes.filterMap fun
    | .push segment => some segment.segId
    | _ => none

/-- The first `draws` values of `rand()` and the ids of the pushed segments are pairwise
distinct. -/
structure DistinctIds (rt : Runtime B ID Vec Dist) (changes : List (Change B ID Vec))
    (draws : Nat) : Prop where
  rand : ∀ m < draws, ∀ n < draws, rt.rand m = rt.rand n → m = n
  pushed : (pushedIds changes).Nodup
  apart : ∀ id ∈ pushedIds changes, ∀ n < draws, rt.rand n ≠ id

theorem pushedIds_append (changes changes' : List (Change B ID Vec)) :
    pushedIds (changes ++ changes') = pushedIds changes ++ pushedIds changes' :=
  List.filterMap_append

theorem DistinctIds.mono {rt : Runtime B ID Vec Dist} {changes changes' : List (Change B ID Vec)}
    {draws draws' : Nat} (h : DistinctIds rt (changes ++ changes') draws') (hle : draws ≤ draws') :
    DistinctIds rt changes draws where
  rand m hm n hn := h.rand m (by omega) n (by omega)
  pushed := by
    have hnodup := h.pushed
    rw [pushedIds_append] at hnodup
    exact (List.nodup_append.mp hnodup).1
  apart id hid n hn :=
    h.apart id (by rw [pushedIds_append]; exact List.mem_append_left _ hid) n (by omega)

section Edits

variable [DecidableEq ID]

/-- Edits push no segments. -/
theorem pushedIds_edit (e : Edit ID Vec) :
    pushedIds (e.op.changes : List (Change B ID Vec)) = [] := by
  cases e with
  | add rows => simp [Edit.op, Op.changes, pushedIds]
  | erase ids => rfl

/-- Without pushed segments only `rand()` matters. -/
theorem distinctIds_of_edits {rt : Runtime B ID Vec Dist} {draws : Nat}
    (hrand : ∀ m < draws, ∀ n < draws, rt.rand m = rt.rand n → m = n)
    (edits : List (Edit ID Vec)) :
    DistinctIds rt ((edits.map Edit.op).flatMap Op.changes : List (Change B ID Vec)) draws := by
  have hnone : pushedIds ((edits.map Edit.op).flatMap Op.changes : List (Change B ID Vec)) =
      [] := by
    induction edits with
    | nil => rfl
    | cons e edits ih =>
      rw [List.map_cons, List.flatMap_cons, pushedIds_append, ih, pushedIds_edit, List.append_nil]
  constructor
  · exact hrand
  · rw [hnone]
    exact List.nodup_nil
  · intro id hid
    rw [hnone] at hid
    cases hid

end Edits

/-- The id has been drawn or pushed. -/
def UsedId (rt : Runtime B ID Vec Dist) (changes : List (Change B ID Vec)) (draws id : Nat) :
    Prop :=
  (∃ n < draws, rt.rand n = id) ∨ id ∈ pushedIds changes

section UsedId

variable {rt : Runtime B ID Vec Dist} {changes : List (Change B ID Vec)} {draws id : Nat}

theorem UsedId.mono {draws' : Nat} (h : UsedId rt changes draws id) (hle : draws ≤ draws') :
    UsedId rt changes draws' id :=
  h.imp_left fun ⟨n, hn, hid⟩ => ⟨n, Nat.lt_of_lt_of_le hn hle, hid⟩

theorem UsedId.append (h : UsedId rt changes draws id) (changes' : List (Change B ID Vec)) :
    UsedId rt (changes ++ changes') draws id := by
  refine h.imp_right fun hid => ?_
  rw [pushedIds_append]
  exact List.mem_append_left _ hid

theorem UsedId.drawn (h : UsedId rt changes draws id) : UsedId rt changes (draws + 1) id :=
  h.mono (Nat.le_succ _)

theorem usedId_draw : UsedId rt changes (draws + 1) (rt.rand draws) :=
  Or.inl ⟨draws, Nat.lt_succ_self _, rfl⟩

/-- The next value of `rand()` is new. -/
theorem DistinctIds.rand_ne (hd : DistinctIds rt changes (draws + 1))
    (h : UsedId rt changes draws id) : rt.rand draws ≠ id := by
  rcases h with ⟨n, hn, rfl⟩ | hid
  · exact fun heq => Nat.ne_of_gt hn (hd.rand draws (by omega) n (by omega) heq)
  · exact hd.apart id hid draws (by omega)

/-- The id of a segment pushed next is new. -/
theorem DistinctIds.pushed_ne {segment : Segment B ID}
    (hd : DistinctIds rt (changes ++ [.push segment]) draws) (h : UsedId rt changes draws id) :
    segment.segId ≠ id := by
  have hpushed : pushedIds (changes ++ [.push segment]) =
      pushedIds changes ++ [segment.segId] := pushedIds_append _ _
  rcases h with ⟨n, hn, rfl⟩ | hid
  · refine (hd.apart segment.segId ?_ n hn).symm
    rw [hpushed]
    exact List.mem_append_right _ List.mem_cons_self
  · have hnodup := hd.pushed
    rw [hpushed] at hnodup
    intro heq
    exact (List.nodup_append.mp hnodup).2.2 id hid segment.segId List.mem_cons_self heq.symm

end UsedId

/-! ## The invariant -/

/-- What holds of the segment ids of an index. -/
structure Ids (rt : Runtime B ID Vec Dist) (changes : List (Change B ID Vec)) (w : Work B ID) :
    Prop where
  inj : ∀ p q, w.index.heap.Alloc p → w.index.heap.Alloc q → w.index.idOf p = w.index.idOf q →
    p = q
  used : ∀ p, w.index.heap.Alloc p → UsedId rt changes w.index.draws (w.index.idOf p)
  retired_used : ∀ id ∈ w.erased, UsedId rt changes w.index.draws id
  retired : ∀ id ∈ w.erased, ∀ p ∈ w.index.current, w.index.idOf p ≠ id
  drops : HarmlessDrops w.index.trace

namespace Ids

variable {rt : Runtime B ID Vec Dist} {changes : List (Change B ID Vec)} {w : Work B ID}

theorem create (rt : Runtime B ID Vec Dist) (config : IndexConfig) (callback : Bool)
    (draws : Nat) : Ids rt [] (Index.create rt config callback draws : Index B ID).rest where
  inj p q hp hq _ := (Nat.lt_one_iff.mp hp).trans (Nat.lt_one_iff.mp hq).symm
  used p hp := by
    obtain rfl : p = 0 := Nat.lt_one_iff.mp hp
    have hid : (Index.create rt config callback draws : Index B ID).idOf 0 = rt.rand draws := by
      unfold Index.create Index.idOf Index.seg
      exact congrArg Segment.segId (Heap.alloc_get_next _ _)
    show UsedId rt [] (draws + 1) _
    rw [show (Index.create rt config callback draws : Index B ID).rest.index.idOf 0 = _ from hid]
    exact usedId_draw
  retired_used id hid := by cases hid
  retired id hid := by cases hid
  drops e he := by cases he

/-- An index with the same ids, more of them used and no other retired ones. -/
theorem transfer (h : Ids rt changes w) {w' : Work B ID} (changes' : List (Change B ID Vec))
    (hnext : w'.index.heap.next = w.index.heap.next)
    (hid : ∀ p, w'.index.idOf p = w.index.idOf p) (hdraws : w.index.draws ≤ w'.index.draws)
    (herased : ∀ id ∈ w'.erased, id ∈ w.erased)
    (hcurrent : ∀ p ∈ w'.index.current, p ∈ w.index.current)
    (hdrops : HarmlessDrops w'.index.trace) : Ids rt (changes ++ changes') w' := by
  have halloc : ∀ p, w'.index.heap.Alloc p ↔ w.index.heap.Alloc p := by
    intro p
    unfold Heap.Alloc
    rw [hnext]
  constructor
  · intro p q hp hq heq
    rw [hid, hid] at heq
    exact h.inj p q ((halloc p).mp hp) ((halloc q).mp hq) heq
  · intro p hp
    rw [hid]
    exact ((h.used p ((halloc p).mp hp)).append _).mono hdraws
  · intro id hmem
    exact ((h.retired_used id (herased id hmem)).append _).mono hdraws
  · intro id hmem p hp
    rw [hid]
    exact h.retired id (herased id hmem) p (hcurrent p hp)
  · exact hdrops

/-- An index with one new object under a new id. -/
theorem alloc (h : Ids rt changes w) {w' : Work B ID}
    {changes' : List (Change B ID Vec)} {segment : Segment B ID}
    (hheap : w'.index.heap = w.index.heap.alloc segment)
    (hused : ∀ id, UsedId rt changes w.index.draws id →
      UsedId rt (changes ++ changes') w'.index.draws id)
    (hnew : UsedId rt (changes ++ changes') w'.index.draws segment.segId)
    (hfresh : ∀ id, UsedId rt changes w.index.draws id → segment.segId ≠ id)
    (herased : w'.erased = []) (hdrops : HarmlessDrops w'.index.trace) :
    Ids rt (changes ++ changes') w' := by
  have hid : ∀ p, w'.index.idOf p =
      if p = w.index.heap.next then segment.segId else w.index.idOf p := by
    intro p
    unfold Index.idOf Index.seg
    rw [hheap, Index.alloc_seg]
    split <;> rfl
  have hold : ∀ p, w'.index.heap.Alloc p → p ≠ w.index.heap.next → w.index.heap.Alloc p := by
    intro p hp hne
    unfold Heap.Alloc at *
    rw [hheap, Heap.alloc_next] at hp
    omega
  constructor
  · exact Index.idOf_inj_of_renamed h.inj (fun p hp => hfresh _ (h.used p hp)) hid
      fun p hp => or_iff_not_imp_right.mpr (hold p hp)
  · intro p hp
    rw [hid]
    split
    · exact hnew
    · next hne => exact hused _ (h.used p (hold p hp hne))
  · intro id hmem
    rw [herased] at hmem
    cases hmem
  · intro id hmem
    rw [herased] at hmem
    cases hmem
  · exact hdrops

theorem finish (h : Ids rt changes w) :
    Ids rt changes { w with
      index := w.index.finishPass w.erased w.inserted
      level := w.level + 1
      erased := []
      inserted := [] } := by
  obtain ⟨segments, trace, calls, heq, -, -⟩ := w.index.finishPass_eq w.erased w.inserted
  have hdrops := h.drops.finishPass w.inserted h.retired
  rw [heq] at hdrops ⊢
  rw [← List.append_nil changes]
  exact h.transfer [] rfl (fun _ => rfl) (Nat.le_refl _) (fun id hid => by cases hid)
    (fun _ hp => hp) hdrops

variable [DecidableEq ID]

/-- The survivor takes a new id; the old ids of the pair are retired. -/
theorem join (h : Ids rt changes w) (hshape : Shape w)
    (hd : DistinctIds rt changes (w.index.draws + 1))
    {j a b : Nat} (left : w.index.levels.cell w.level j = some a)
    (right : w.index.levels.cell w.level (j + 1) = some b) :
    Ids rt changes { w with
      index := w.index.join rt w.level j a b
      erased := w.erased ++ [w.index.idOf b, w.index.idOf a]
      inserted := w.inserted ++ [a] } := by
  have hb : b ∈ w.index.current := Index.mem_current_of_cell right
  have ha : a ∈ w.index.current := Index.mem_current_of_cell left
  have hnew : ∀ p, w.index.heap.Alloc p → rt.rand w.index.draws ≠ w.index.idOf p := fun p hp =>
    hd.rand_ne (h.used p hp)
  have hid := w.index.join_idOf rt w.level j a b
  constructor
  · exact Index.idOf_inj_of_renamed h.inj hnew hid fun p hp => Or.inl hp
  · intro p hp
    show UsedId rt changes (w.index.draws + 1) ((w.index.join rt w.level j a b).idOf p)
    rw [hid]
    split
    · exact usedId_draw
    · exact (h.used p hp).drawn
  · intro id hmem
    show UsedId rt changes (w.index.draws + 1) id
    refine UsedId.drawn ?_
    simp only [List.mem_append, List.mem_cons, List.not_mem_nil, or_false] at hmem
    rcases hmem with hmem | rfl | rfl
    · exact h.retired_used id hmem
    · exact h.used b (hshape.current_alloc b hb)
    · exact h.used a (hshape.current_alloc a ha)
  · intro id hmem p hp
    show (w.index.join rt w.level j a b).idOf p ≠ id
    obtain ⟨hpc, hpb⟩ := (hshape.mem_join_current rt left right).mp hp
    have hpa := hshape.current_alloc p hpc
    rw [hid]
    simp only [List.mem_append, List.mem_cons, List.not_mem_nil, or_false] at hmem
    split
    · rcases hmem with hmem | rfl | rfl
      · exact hd.rand_ne (h.retired_used id hmem)
      · exact hnew b (hshape.current_alloc b hb)
      · exact hnew a (hshape.current_alloc a ha)
    · next hne' =>
      rcases hmem with hmem | rfl | rfl
      · exact h.retired id hmem p hpc
      · exact fun heq => hpb (h.inj p b hpa (hshape.current_alloc b hb) heq)
      · exact fun heq => hne' (h.inj p a hpa (hshape.current_alloc a ha) heq)
  · intro e he
    rcases List.mem_append.mp he with he | he
    · exact h.drops e he
    · rw [List.mem_singleton.mp he]
      trivial

/-- Every step keeps the ids distinct. -/
theorem step (h : Ids rt changes w) (hshape : Shape w) {changes' : List (Change B ID Vec)}
    {w' : Work B ID} (hd : DistinctIds rt (changes ++ changes') w'.index.draws)
    (hstep : Step rt changes' w w') : Ids rt (changes ++ changes') w' := by
  cases hstep with
  | append _ rows =>
    exact h.transfer _ rfl (w.index.appendLast_idOf rt rows) (Nat.le_refl _) (fun _ hid => hid)
      (fun _ hp => hp) h.drops
  | sealLast _ idle full stored =>
    obtain ⟨levels, -, rfl⟩ := Index.storageAdd_eq_ok stored
    exact h.alloc rfl (fun id hid => (hid.append []).drawn) usedId_draw
      (fun id hid => DistinctIds.rand_ne (hd.mono (Nat.le_refl _)) hid) idle.1 h.drops
  | report =>
    obtain ⟨calls, hcalls⟩ := w.index.notify_eq [] w.fresh
    rw [hcalls]
    exact h.transfer _ rfl (fun _ => rfl) (Nat.le_refl _) (fun _ hid => hid) (fun _ hp => hp)
      h.drops
  | merge hmerge =>
    cases hmerge with
    | join j reported left right kinds =>
      rw [List.append_nil]
      exact h.join hshape (hd.mono (Nat.le_refl _)) left right
    | finish =>
      rw [List.append_nil]
      exact h.finish
    | compact idle =>
      refine h.transfer _ rfl (fun _ => rfl) (Nat.le_refl _) (fun _ hid => hid)
        (fun p hp => ?_) h.drops
      rwa [show w.index.compactLevels.current = w.index.current from
        w.index.current_compactLevels] at hp
  | elsewhere _ n =>
    exact h.transfer _ rfl (fun _ => rfl) (Nat.le_add_right _ n) (fun _ hid => hid)
      (fun _ hp => hp) h.drops
  | erase _ ids =>
    exact h.transfer _ (w.index.erase_next ids) (w.index.erase_idOf ids) (Nat.le_refl _)
      (fun _ hid => hid)
      (fun _ hp => hp) h.drops
  | push _ wf idle stored =>
    obtain ⟨levels, -, rfl⟩ := Index.pushSegment_eq_ok stored
    refine h.alloc rfl (fun id hid => hid.append _) (Or.inr ?_) (fun id hid => hd.pushed_ne hid)
      idle.1 h.drops
    rw [pushedIds_append]
    exact List.mem_append_right _ List.mem_cons_self

end Ids

variable [DecidableEq ID]

/-- Shape, distinct ids and coverage together, as they hold after every history with distinct
segment ids. -/
structure Sound (rt : Runtime B ID Vec Dist) (changes : List (Change B ID Vec)) (w : Work B ID) :
    Prop where
  shape : Shape w
  ids : Ids rt changes w
  visited : Visited w

namespace Sound

variable {rt : Runtime B ID Vec Dist} {changes : List (Change B ID Vec)} {w : Work B ID}

theorem create (rt : Runtime B ID Vec Dist) (config : IndexConfig) (callback : Bool)
    (draws : Nat) : Sound rt [] (Index.create rt config callback draws : Index B ID).rest :=
  ⟨Shape.create rt config callback draws, Ids.create rt config callback draws,
    Visited.create rt config callback draws⟩

theorem step (h : Sound rt changes w) {changes' : List (Change B ID Vec)} {w' : Work B ID}
    (hd : DistinctIds rt (changes ++ changes') w'.index.draws) (hstep : Step rt changes' w w') :
    Sound rt (changes ++ changes') w' :=
  have hids := h.ids.step h.shape hd hstep
  ⟨h.shape.step hstep, hids, Visited.step h.shape h.visited hstep hids.drops⟩

/-- The segments of the levels have pairwise distinct ids. -/
theorem nodup_ids (h : Sound rt changes w) : (w.index.current.map w.index.idOf).Nodup :=
  h.shape.nodup.map_on fun p hp q hq heq =>
    h.ids.inj p q (h.shape.current_alloc p hp) (h.shape.current_alloc q hq) heq

theorem of_runs (h : Sound rt changes w) {changes' : List (Change B ID Vec)} {w' : Work B ID}
    (hruns : Runs (Step rt) changes' w w')
    (hd : DistinctIds rt (changes ++ changes') w'.index.draws) :
    Sound rt (changes ++ changes') w' := by
  refine hruns.invariant (P := fun ks u => DistinctIds rt (changes ++ ks) u.index.draws →
    Sound rt (changes ++ ks) u) ?_ (fun _ => by rwa [List.append_nil]) hd
  intro ks ls u v hu hstep hd
  rw [← List.append_assoc] at hd ⊢
  exact (hu (hd.mono hstep.draws_le)).step hd hstep

/-- What every step between sound states keeps holds after every run with distinct ids. -/
theorem invariant {P : List (Change B ID Vec) → Work B ID → Prop} (h : Sound rt [] w)
    {w' : Work B ID} (hruns : Runs (Step rt) changes w w')
    (hd : DistinctIds rt changes w'.index.draws)
    (hstep : ∀ ks ls u v, DistinctIds rt (ks ++ ls) v.index.draws → Sound rt ks u →
      Step rt ls u v → P ks u → P (ks ++ ls) v) (hw : P [] w) :
    Sound rt changes w' ∧ P changes w' := by
  refine hruns.invariant
    (P := fun ks u => DistinctIds rt ks u.index.draws → Sound rt ks u ∧ P ks u) ?_
    (fun _ => ⟨h, hw⟩) hd
  intro ks ls u v hu huv hd
  obtain ⟨hsound, hP⟩ := hu (hd.mono huv.draws_le)
  have hsound' := hsound.step hd huv
  exact ⟨hsound', hstep ks ls u v hd hsound huv hP⟩

/-- A call that changes documents uses no ids but those of `rand()`. -/
theorem of_edit (h : Sound rt [] w) {e : Edit ID Vec} {w' : Work B ID}
    (hruns : Runs (Step rt) e.op.changes w w')
    (hrand : ∀ m < w'.index.draws, ∀ n < w'.index.draws, rt.rand m = rt.rand n → m = n) :
    Sound rt [] w' := by
  have hpushed : pushedIds (e.op.changes : List (Change B ID Vec)) = [] := pushedIds_edit e
  have hd := distinctIds_of_edits (B := B) hrand [e]
  rw [List.map_singleton, List.flatMap_singleton] at hd
  obtain ⟨hshape, hids, hvisited⟩ := h.of_runs hruns hd
  rw [List.nil_append] at hids
  refine ⟨hshape, ⟨hids.inj, fun p hp => ?_, fun id hid => ?_, hids.retired, hids.drops⟩, hvisited⟩
  · exact (hids.used p hp).imp_right fun hmem => by rwa [hpushed] at hmem
  · exact (hids.retired_used id hid).imp_right fun hmem => by rwa [hpushed] at hmem

/-- After every history with distinct segment ids. -/
theorem of_run {config : IndexConfig} {callback : Bool} {draws : Nat} {ops : List (Op B ID Vec)}
    {st : Index B ID} (hrun : (Index.create rt config callback draws).run rt ops = .ok st)
    (hd : DistinctIds rt (ops.flatMap Op.changes) st.draws) :
    Sound rt (ops.flatMap Op.changes) st.rest :=
  ((create rt config callback draws).invariant (P := fun _ _ => True) (Index.run_runs hrun) hd
    (fun _ _ _ _ _ _ _ _ => trivial) trivial).1

end Sound

end Vecodex
