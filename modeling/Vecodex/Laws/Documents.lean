import Vecodex.Laws.Contents
import Vecodex.Laws.SegmentIds

/-!
# The documents of an index

Seen from outside, an index is a list of live rows: an `add` appends its rows, an `erase` removes
the rows of the ids it names (`liveRows`). This module relates it to the segments, for histories
in which an id is added only while it is not live (`AddsFresh`).

A live row is held by one segment of the levels or by the open one (`Documents.complete`,
`Documents.disjoint`). The list a search walks has more: a segment that survived a merge is in it
several times, and a segment that was absorbed may still be there. `Documents.sound` says that
these copies show nothing but live rows, and `Documents.unshadowed` that an erase reaches all of
them.
-/

namespace Vecodex

open Lib

variable {B ID Vec Dist : Type} [DecidableEq ID]

/-! ## Histories of documents -/

/-- The live rows after a call. -/
def Edit.apply (live : List (ID × Vec)) : Edit ID Vec → List (ID × Vec)
  | .add rows => live ++ rows
  | .erase ids => live.filter fun r => r.1 ∉ ids

/-- The live rows after a history. -/
def liveRows (edits : List (Edit ID Vec)) : List (ID × Vec) := edits.foldl Edit.apply []

/-- Every id is added only while it is not live, and once in a batch. -/
def AddsFresh (live : List (ID × Vec)) : List (Edit ID Vec) → Prop
  | [] => True
  | .add rows :: edits =>
    (rows.map Prod.fst).Nodup ∧ (∀ x ∈ rows.map Prod.fst, x ∉ live.map Prod.fst) ∧
      AddsFresh (live ++ rows) edits
  | .erase ids :: edits => AddsFresh (live.filter fun r => r.1 ∉ ids) edits

instance decidableAddsFresh : (live : List (ID × Vec)) → (edits : List (Edit ID Vec)) →
    Decidable (AddsFresh live edits)
  | _, [] => .isTrue trivial
  | live, .add rows :: edits =>
    haveI := decidableAddsFresh (live ++ rows) edits
    inferInstanceAs (Decidable ((rows.map Prod.fst).Nodup ∧
      (∀ x ∈ rows.map Prod.fst, x ∉ live.map Prod.fst) ∧ AddsFresh (live ++ rows) edits))
  | live, .erase ids :: edits => decidableAddsFresh (live.filter fun r => r.1 ∉ ids) edits

/-- The live rows after a change. -/
def Change.apply (live : List (ID × Vec)) : Change B ID Vec → List (ID × Vec)
  | .put x v => live ++ [(x, v)]
  | .drop ids => live.filter fun r => r.1 ∉ ids
  | .push _ => live

/-- The changes put ids that are not live and push no segments. -/
def PutsFresh (live : List (ID × Vec)) : List (Change B ID Vec) → Prop
  | [] => True
  | .put x v :: changes => x ∉ live.map Prod.fst ∧ PutsFresh (live ++ [(x, v)]) changes
  | .drop ids :: changes => PutsFresh (live.filter fun r => r.1 ∉ ids) changes
  | .push _ :: _ => False

theorem foldl_apply_puts (live rows : List (ID × Vec)) :
    ((rows.map fun r => .put r.1 r.2 : List (Change B ID Vec))).foldl Change.apply live =
      live ++ rows := by
  induction rows generalizing live with
  | nil => exact (List.append_nil _).symm
  | cons r rows ih =>
    rw [List.map_cons, List.foldl_cons, ih]
    show live ++ [r] ++ rows = live ++ r :: rows
    rw [List.append_assoc, List.singleton_append]

theorem putsFresh_append {live : List (ID × Vec)} {changes changes' : List (Change B ID Vec)} :
    PutsFresh live (changes ++ changes') ↔
      PutsFresh live changes ∧ PutsFresh (changes.foldl Change.apply live) changes' := by
  induction changes generalizing live with
  | nil => simp [PutsFresh]
  | cons c changes ih =>
    cases c with
    | put x v => simp [PutsFresh, ih, Change.apply, and_assoc]
    | drop ids => simp [PutsFresh, ih, Change.apply]
    | push segment => simp [PutsFresh]

theorem putsFresh_puts {live rows : List (ID × Vec)} :
    PutsFresh live (rows.map fun r => .put r.1 r.2 : List (Change B ID Vec)) ↔
      (rows.map Prod.fst).Nodup ∧ ∀ x ∈ rows.map Prod.fst, x ∉ live.map Prod.fst := by
  induction rows generalizing live with
  | nil => simp [PutsFresh]
  | cons r rows ih =>
    simp only [List.map_cons, PutsFresh, ih, List.nodup_cons, List.mem_cons, List.map_append,
      List.map_nil, List.mem_append, List.not_mem_nil, or_false, not_or]
    constructor
    · rintro ⟨hr, hnodup, hrest⟩
      refine ⟨⟨fun hmem => (hrest _ hmem).2 rfl, hnodup⟩, ?_⟩
      rintro x (rfl | hx)
      · exact hr
      · exact (hrest x hx).1
    · rintro ⟨⟨hr, hnodup⟩, hrest⟩
      refine ⟨hrest _ (Or.inl rfl), hnodup, fun x hx => ⟨hrest x (Or.inr hx), ?_⟩⟩
      rintro rfl
      exact hr hx

/-- The changes of a history of documents have its live rows. -/
theorem foldl_apply_changes (live : List (ID × Vec)) (edits : List (Edit ID Vec)) :
    ((edits.map Edit.op).flatMap Op.changes : List (Change B ID Vec)).foldl Change.apply live =
      edits.foldl Edit.apply live := by
  induction edits generalizing live with
  | nil => rfl
  | cons e edits ih =>
    rw [List.map_cons, List.flatMap_cons, List.foldl_append, List.foldl_cons, ih]
    cases e with
    | add rows => exact congrArg (edits.foldl Edit.apply) (foldl_apply_puts live rows)
    | erase ids => rfl

theorem AddsFresh.putsFresh {live : List (ID × Vec)} {edits : List (Edit ID Vec)}
    (h : AddsFresh live edits) :
    PutsFresh live ((edits.map Edit.op).flatMap Op.changes : List (Change B ID Vec)) := by
  induction edits generalizing live with
  | nil => trivial
  | cons e edits ih =>
    rw [List.map_cons, List.flatMap_cons, putsFresh_append]
    cases e with
    | add rows =>
      obtain ⟨hnodup, hnew, hrest⟩ := h
      refine ⟨putsFresh_puts.mpr ⟨hnodup, hnew⟩, ?_⟩
      rw [show (Op.changes (Edit.op (Edit.add rows)) : List (Change B ID Vec)) =
        rows.map (fun r => .put r.1 r.2) from rfl, foldl_apply_puts]
      exact ih hrest
    | erase ids => exact ⟨trivial, ih h⟩

/-! ## Where the rows are -/

/-- The segments that own rows: those of the levels and the open one. -/
def Index.owners (idx : Index B ID) : List Nat := idx.current ++ [idx.last]

omit [DecidableEq ID] in
theorem Index.mem_owners {idx : Index B ID} {p : Nat} :
    p ∈ idx.owners ↔ p ∈ idx.current ∨ p = idx.last := by
  simp [owners]

omit [DecidableEq ID] in
theorem Visited.owners {w : Work B ID} (h : Visited w) {p : Nat} (hp : p ∈ w.index.owners) :
    p ∈ w.index.visited := by
  rw [Index.mem_owners] at hp
  rw [Index.mem_visited]
  exact hp.imp_left (h p)

/-- Edits push no segments. -/
theorem not_push_of_edit (e : Edit ID Vec) (segment : Segment B ID) :
    .push segment ∉ (e.op.changes : List (Change B ID Vec)) := by
  intro hmem
  cases e with
  | add rows =>
    obtain ⟨r, -, heq⟩ := List.mem_map.mp hmem
    cases heq
  | erase ids => cases List.mem_singleton.mp hmem

/-- The base indexes of all segments hold as many vectors as positions are bound. -/
def AlignedAll {rt : Runtime B ID Vec Dist} (base : StoringBase rt.faiss) (w : Work B ID) : Prop :=
  ∀ p, (w.index.seg p).index.Aligned base

namespace AlignedAll

variable {rt : Runtime B ID Vec Dist} {base : StoringBase rt.faiss} {w : Work B ID}

omit [DecidableEq ID] in
theorem create (base : StoringBase rt.faiss) (config : IndexConfig) (callback : Bool)
    (draws : Nat) : AlignedAll base (Index.create rt config callback draws : Index B ID).rest := by
  intro p
  show ((Index.create rt config callback draws : Index B ID).seg p).index.Aligned base
  rw [Index.create_seg]
  exact FaissIndex.aligned_create base config.kind

/-- Every step keeps the base indexes aligned when the pushed segments are. -/
theorem step (h : AlignedAll base w) {changes : List (Change B ID Vec)} {w' : Work B ID}
    (hstep : Step rt changes w w')
    (hpush : ∀ segment, .push segment ∈ changes → segment.index.Aligned base) :
    AlignedAll base w' := by
  intro p
  cases hstep with
  | append _ rows =>
    show ((w.index.appendLast rt rows).seg p).index.Aligned base
    rw [Index.appendLast_seg]
    split
    · exact (h p).addBatch base rows
    · exact h p
  | sealLast _ idle full stored =>
    show ((Index.openNext rt _).seg p).index.Aligned base
    rw [Index.openNext_seg stored]
    split
    · exact FaissIndex.aligned_create base _
    · exact h p
  | report =>
    obtain ⟨calls, hcalls⟩ := w.index.notify_eq [] w.fresh
    rw [hcalls]
    exact h p
  | merge hmerge =>
    cases hmerge with
    | join j reported left right kinds =>
      show ((w.index.join rt w.level j _ _).seg p).index.Aligned base
      rw [Index.join_seg]
      split
      · exact (h _).addBatch base _
      · exact h p
    | finish =>
      obtain ⟨segments, trace, calls, heq, -, -⟩ := w.index.finishPass_eq w.erased w.inserted
      rw [heq]
      exact h p
    | compact idle => exact h p
  | elsewhere _ n => exact h p
  | erase _ ids =>
    show ((w.index.erase ids).seg p).index.Aligned base
    rw [Index.erase_seg]
    split
    · exact (h p).eraseBatch base ids
    · exact h p
  | push _ wf idle stored =>
    rw [Index.pushSegment_seg stored]
    split
    · exact hpush _ List.mem_cons_self
    · exact h p

theorem of_runs (h : AlignedAll base w) {changes : List (Change B ID Vec)} {w' : Work B ID}
    (hruns : Runs (Step rt) changes w w')
    (hpush : ∀ segment, .push segment ∈ changes → segment.index.Aligned base) :
    AlignedAll base w' := by
  refine hruns.invariant (P := fun ks u => (∀ segment, .push segment ∈ ks →
    segment.index.Aligned base) → AlignedAll base u) ?_ (fun _ => h) hpush
  intro ks ls u v hu hstep hpush
  exact (hu fun s hs => hpush s (List.mem_append_left _ hs)).step hstep
    fun s hs => hpush s (List.mem_append_right _ hs)

/-- After every history of `add` and `erase`. -/
theorem of_run (base : StoringBase rt.faiss) {config : IndexConfig} {callback : Bool}
    {draws : Nat} {edits : List (Edit ID Vec)} {st : Index B ID}
    (hrun : (Index.create rt config callback draws).run rt (edits.map Edit.op) = .ok st) :
    AlignedAll base st.rest := by
  refine (create base config callback draws).of_runs (Index.run_runs hrun) fun segment hmem => ?_
  obtain ⟨op, hop, hmem⟩ := List.mem_flatMap.mp hmem
  obtain ⟨e, -, rfl⟩ := List.mem_map.mp hop
  exact absurd hmem (not_push_of_edit e segment)

end AlignedAll

/-- The rows after rows were appended to the open segment. -/
theorem AlignedAll.appendLast_holds {rt : Runtime B ID Vec Dist} {base : StoringBase rt.faiss}
    {w : Work B ID} (h : AlignedAll base w) (hshape : Shape w) (rows : List (ID × Vec)) (p : Nat)
    (x : ID) (v : Vec) : ((w.index.appendLast rt rows).seg p).index.Holds base x v ↔
      (w.index.seg p).index.Holds base x v ∨ p = w.index.last ∧ (x, v) ∈ rows := by
  rw [Index.appendLast_seg]
  split
  · next hp =>
    rw [Segment.addVectorBatch, FaissIndex.addBatch_holds base (hshape.wf p) (h p)]
    simp [hp]
  · next hp => simp [hp]

/-- The rows after `b` was merged into `a`. -/
theorem AlignedAll.join_holds {rt : Runtime B ID Vec Dist} {base : StoringBase rt.faiss}
    {w : Work B ID} (h : AlignedAll base w) (hshape : Shape w) (i j a b p : Nat) (x : ID)
    (v : Vec) : ((w.index.join rt i j a b).seg p).index.Holds base x v ↔
      (w.index.seg p).index.Holds base x v ∨ p = a ∧ (w.index.seg b).index.Holds base x v := by
  rw [Index.join_seg]
  split
  · next hp =>
    subst hp
    rw [FaissIndex.addBatch_holds base (hshape.wf p) (h p),
      FaissIndex.mem_survivors_iff_holds base (hshape.wf b) (h b)]
    simp
  · next hp => simp [hp]

/-- The absorbed segment no longer holds documents. -/
theorem Shape.mem_join_owners {w : Work B ID} (hshape : Shape w) (rt : Runtime B ID Vec Dist)
    {j a b : Nat} (left : w.index.levels.cell w.level j = some a)
    (right : w.index.levels.cell w.level (j + 1) = some b) {p : Nat} :
    p ∈ (w.index.join rt w.level j a b).owners ↔ p ∈ w.index.owners ∧ p ≠ b := by
  have hlast : w.index.last ≠ b := fun heq =>
    hshape.last_current (heq ▸ Index.mem_current_of_cell right)
  rw [Index.mem_owners, Index.mem_owners, hshape.mem_join_current rt left right]
  constructor
  · rintro (⟨hp, hpb⟩ | rfl)
    · exact ⟨Or.inl hp, hpb⟩
    · exact ⟨Or.inr rfl, hlast⟩
  · rintro ⟨hp | hp, hpb⟩
    · exact Or.inl ⟨hp, hpb⟩
    · exact Or.inr hp

/-- The live rows and the rows of the segments. -/
structure Documents {rt : Runtime B ID Vec Dist} (base : StoringBase rt.faiss)
    (live : List (ID × Vec)) (w : Work B ID) : Prop where
  nodup : (live.map Prod.fst).Nodup
  unshadowed : ∀ p ∈ w.index.visited, (w.index.seg p).index.Unshadowed
  sound : ∀ p ∈ w.index.visited, ∀ x v, (w.index.seg p).index.Holds base x v → (x, v) ∈ live
  complete : ∀ x v, (x, v) ∈ live → ∃ p ∈ w.index.owners, (w.index.seg p).index.Holds base x v
  disjoint : ∀ p ∈ w.index.owners, ∀ q ∈ w.index.owners, p ≠ q → ∀ x v v',
    (w.index.seg p).index.Holds base x v → ¬ (w.index.seg q).index.Holds base x v'

namespace Documents

variable {rt : Runtime B ID Vec Dist} {base : StoringBase rt.faiss} {live : List (ID × Vec)}
  {w : Work B ID}

theorem create (base : StoringBase rt.faiss) (config : IndexConfig) (callback : Bool)
    (draws : Nat) :
    Documents base [] (Index.create rt config callback draws : Index B ID).rest := by
  have hseg : ∀ p, (Index.create rt config callback draws : Index B ID).rest.index.seg p =
      Index.freshSegment rt config draws := Index.create_seg rt config callback draws
  constructor
  · exact List.nodup_nil
  · intro p _ x pos hlive
    rw [hseg] at hlive
    exact absurd hlive (FaissIndex.not_liveAt_create rt config.kind pos x)
  · intro p _ x v hholds
    rw [hseg] at hholds
    exact absurd hholds (FaissIndex.not_holds_create base config.kind x v)
  · intro x v hmem
    cases hmem
  · intro p _ q _ _ x v v' hholds
    rw [hseg] at hholds
    exact absurd hholds (FaissIndex.not_holds_create base config.kind x v)

theorem owners_alloc (hshape : Shape w) {p : Nat} (hp : p ∈ w.index.owners) :
    w.index.heap.Alloc p :=
  hshape.owner_alloc (Index.mem_owners.mp hp)

/-- A step that leaves the segments alone and shows a search no other ones. -/
theorem transfer (h : Documents base live w) {w' : Work B ID}
    (hseg : ∀ p, w'.index.seg p = w.index.seg p)
    (hvisited : ∀ p ∈ w'.index.visited, p ∈ w.index.visited)
    (howners : ∀ p, p ∈ w'.index.owners ↔ p ∈ w.index.owners) : Documents base live w' := by
  constructor
  · exact h.nodup
  · intro p hp
    rw [hseg]
    exact h.unshadowed p (hvisited p hp)
  · intro p hp x v
    rw [hseg]
    exact h.sound p (hvisited p hp) x v
  · intro x v hmem
    obtain ⟨p, hp, hholds⟩ := h.complete x v hmem
    exact ⟨p, (howners p).mpr hp, (hseg p).symm ▸ hholds⟩
  · intro p hp q hq hne x v v'
    rw [hseg, hseg]
    exact h.disjoint p ((howners p).mp hp) q ((howners q).mp hq) hne x v v'

/-- New rows go to the open segment. -/
theorem append (h : Documents base live w) (hshape : Shape w) (halign : AlignedAll base w)
    (hvis : Visited w) {rows : List (ID × Vec)} (hnodup : (rows.map Prod.fst).Nodup)
    (hnew : ∀ x ∈ rows.map Prod.fst, x ∉ live.map Prod.fst) :
    Documents base (live ++ rows) { w with index := w.index.appendLast rt rows } := by
  have hseg := w.index.appendLast_seg rt rows
  have hholds := halign.appendLast_holds hshape rows
  have hfresh : ∀ p ∈ w.index.visited, ∀ x v v', (w.index.seg p).index.Holds base x v →
      (x, v') ∉ rows := by
    intro p hp x v v' hx hmem
    exact hnew x (List.mem_map_of_mem hmem) (List.mem_map_of_mem (h.sound p hp x v hx))
  constructor
  · rw [List.map_append, List.nodup_append]
    exact ⟨h.nodup, hnodup, fun x hx y hy heq => hnew y hy (heq ▸ hx)⟩
  · intro p hp
    show ((w.index.appendLast rt rows).seg p).index.Unshadowed
    rw [hseg]
    split
    · refine (h.unshadowed p hp).addBatch (hshape.wf p) rt hnodup fun x hx hlive => ?_
      obtain ⟨v, hv⟩ := FaissIndex.LiveId.exists_holds base (hshape.wf p) (halign p) hlive
      exact hnew x hx (List.mem_map_of_mem (h.sound p hp x v hv))
    · exact h.unshadowed p hp
  · intro p hp x v hx
    rcases (hholds p x v).mp hx with hx | ⟨-, hx⟩
    · exact List.mem_append_left _ (h.sound p hp x v hx)
    · exact List.mem_append_right _ hx
  · intro x v hmem
    rcases List.mem_append.mp hmem with hmem | hmem
    · obtain ⟨p, hp, hx⟩ := h.complete x v hmem
      exact ⟨p, hp, (hholds p x v).mpr (Or.inl hx)⟩
    · exact ⟨w.index.last, Index.mem_owners.mpr (Or.inr rfl),
        (hholds _ x v).mpr (Or.inr ⟨rfl, hmem⟩)⟩
  · intro p hp q hq hne x v v' hx hx'
    rcases (hholds p x v).mp hx with hx | ⟨hpl, hx⟩
    · rcases (hholds q x v').mp hx' with hx' | ⟨-, hx'⟩
      · exact h.disjoint p hp q hq hne x v v' hx hx'
      · exact hfresh p (hvis.owners hp) x v v' hx hx'
    · rcases (hholds q x v').mp hx' with hx' | ⟨hql, -⟩
      · exact hfresh q (hvis.owners hq) x v' v hx' hx
      · exact hne (hpl.trans hql.symm)

/-- The open segment joins the levels and an empty one takes its place. -/
theorem sealLast (h : Documents base live w) (hshape : Shape w) {idx : Index B ID}
    (stored : w.index.storageAdd w.index.last = .ok idx) {w' : Work B ID}
    (hw' : w'.index = idx.openNext rt) : Documents base live w' := by
  have hseg : ∀ p, w'.index.seg p = if p = w.index.heap.next then
      Index.freshSegment rt w.index.config w.index.draws else w.index.seg p := fun p =>
    hw' ▸ Index.openNext_seg stored p
  have hvisited : ∀ p, p ∈ w'.index.visited ↔ p ∈ w.index.visited ∨ p = w.index.heap.next :=
    fun p => hw' ▸ Index.mem_openNext_visited stored
  have howners : ∀ p, p ∈ w'.index.owners ↔ p ∈ w.index.owners ∨ p = w.index.heap.next := by
    intro p
    rw [Index.mem_owners, Index.mem_owners, hw', Index.mem_openNext_current stored,
      Index.openNext_last stored]
  -- the new open segment is empty, and no old segment is behind its pointer
  have hempty : ∀ x v, ¬ (w'.index.seg w.index.heap.next).index.Holds base x v := by
    intro x v
    rw [hseg, if_pos rfl]
    exact FaissIndex.not_holds_create base _ x v
  have hold : ∀ p, w.index.heap.Alloc p → w'.index.seg p = w.index.seg p := by
    intro p hp
    rw [hseg, if_neg (Nat.ne_of_lt hp)]
  constructor
  · exact h.nodup
  · intro p hp
    rcases (hvisited p).mp hp with hp | rfl
    · rw [hold p (hshape.visited_alloc hp)]
      exact h.unshadowed p hp
    · rw [hseg, if_pos rfl]
      exact fun x pos hlive => absurd hlive (FaissIndex.not_liveAt_create rt _ pos x)
  · intro p hp x v hx
    rcases (hvisited p).mp hp with hp | rfl
    · rw [hold p (hshape.visited_alloc hp)] at hx
      exact h.sound p hp x v hx
    · exact absurd hx (hempty x v)
  · intro x v hmem
    obtain ⟨p, hp, hx⟩ := h.complete x v hmem
    refine ⟨p, (howners p).mpr (Or.inl hp), ?_⟩
    rwa [hold p (owners_alloc hshape hp)]
  · intro p hp q hq hne x v v' hx hx'
    rcases (howners p).mp hp with hp | rfl
    · rcases (howners q).mp hq with hq | rfl
      · rw [hold p (owners_alloc hshape hp)] at hx
        rw [hold q (owners_alloc hshape hq)] at hx'
        exact h.disjoint p hp q hq hne x v v' hx hx'
      · exact absurd hx' (hempty x v')
    · exact absurd hx (hempty x v)

/-- The survivor of a join takes over the rows of the absorbed segment. -/
theorem join (h : Documents base live w) (hshape : Shape w) (halign : AlignedAll base w)
    (hvis : Visited w) {j a b : Nat}
    (left : w.index.levels.cell w.level j = some a)
    (right : w.index.levels.cell w.level (j + 1) = some b) {w' : Work B ID}
    (hw' : w'.index = w.index.join rt w.level j a b) : Documents base live w' := by
  obtain ⟨-, hne, -, -⟩ := hshape.join_cells rt left right
  have hac : a ∈ w.index.owners := Index.mem_owners.mpr (Or.inl (Index.mem_current_of_cell left))
  have hbc : b ∈ w.index.owners := Index.mem_owners.mpr (Or.inl (Index.mem_current_of_cell right))
  have hbv : b ∈ w.index.visited := hvis.owners hbc
  have hseg := w.index.join_seg rt w.level j a b
  have hholds := halign.join_holds hshape w.level j a b
  have howners : ∀ p, p ∈ (w.index.join rt w.level j a b).owners ↔
      p ∈ w.index.owners ∧ p ≠ b := fun _ => hshape.mem_join_owners rt left right
  constructor
  · exact h.nodup
  · intro p hp
    rw [hw'] at hp ⊢
    rw [hseg]
    split
    · refine (h.unshadowed a (hvis.owners hac)).addBatch (hshape.wf a) rt
        ((h.unshadowed b hbv).nodup_survivors rt) fun x hx hlive => ?_
      obtain ⟨v, hv⟩ := FaissIndex.LiveId.exists_holds base (hshape.wf a) (halign a) hlive
      obtain ⟨v', hv'⟩ := FaissIndex.LiveId.exists_holds base (hshape.wf b) (halign b)
        ((FaissIndex.mem_survivors_ids rt _ x).mp hx)
      exact h.disjoint a hac b hbc hne x v v' hv hv'
    · exact h.unshadowed p hp
  · intro p hp x v hx
    rw [hw'] at hp hx
    rcases (hholds p x v).mp hx with hx | ⟨-, hx⟩
    · exact h.sound p hp x v hx
    · exact h.sound b hbv x v hx
  · intro x v hmem
    rw [hw']
    obtain ⟨p, hp, hx⟩ := h.complete x v hmem
    by_cases hpb : p = b
    · subst hpb
      exact ⟨a, (howners a).mpr ⟨hac, hne⟩, (hholds a x v).mpr (Or.inr ⟨rfl, hx⟩)⟩
    · exact ⟨p, (howners p).mpr ⟨hp, hpb⟩, (hholds p x v).mpr (Or.inl hx)⟩
  · intro p hp q hq hpq x v v' hx hx'
    rw [hw'] at hp hq hx hx'
    obtain ⟨hp, hpb⟩ := (howners p).mp hp
    obtain ⟨hq, hqb⟩ := (howners q).mp hq
    rcases (hholds p x v).mp hx with hx | ⟨hpa, hx⟩
    · rcases (hholds q x v').mp hx' with hx' | ⟨-, hx'⟩
      · exact h.disjoint p hp q hq hpq x v v' hx hx'
      · exact h.disjoint p hp b hbc hpb x v v' hx hx'
    · rcases (hholds q x v').mp hx' with hx' | ⟨hqa, -⟩
      · exact h.disjoint b hbc q hq (Ne.symm hqb) x v v' hx hx'
      · exact hpq (hpa.trans hqa.symm)

/-- The end of a pass shows a search no segment that it did not visit before. -/
theorem finish (h : Documents base live w) (hshape : Shape w) (hvis : Visited w) {w' : Work B ID}
    (hw' : w'.index = w.index.finishPass w.erased w.inserted) : Documents base live w' := by
  have hvisited : ∀ p ∈ w'.index.visited, p ∈ w.index.visited := by
    intro p hp
    rw [hw'] at hp
    rcases hshape.visited_finishPass hp with hp | hp
    · exact hp
    · exact Index.mem_visited.mpr (Or.inl (hvis p hp))
  obtain ⟨segments, trace, calls, heq, -, -⟩ := w.index.finishPass_eq w.erased w.inserted
  rw [heq] at hw'
  exact h.transfer (fun p => by rw [hw']; rfl) hvisited (fun p => by rw [hw']; rfl)

/-- An erase reaches every row of its ids. -/
theorem erase (h : Documents base live w) (hshape : Shape w) (hvis : Visited w) (ids : List ID) :
    Documents base (live.filter fun r => r.1 ∉ ids) { w with index := w.index.erase ids } := by
  have hseg := w.index.erase_seg ids
  have hholds : ∀ p ∈ w.index.visited, ∀ x v,
      ((w.index.erase ids).seg p).index.Holds base x v ↔
        (w.index.seg p).index.Holds base x v ∧ x ∉ ids := by
    intro p hp x v
    rw [hseg, if_pos hp]
    exact FaissIndex.eraseBatch_holds base (hshape.wf p) ids (h.unshadowed p hp x) v
  have hlive : ∀ x v, (x, v) ∈ (live.filter fun r => r.1 ∉ ids) ↔ (x, v) ∈ live ∧ x ∉ ids := by
    intro x v
    rw [List.mem_filter, decide_eq_true_eq]
  constructor
  · exact h.nodup.sublist (List.filter_sublist.map _)
  · intro p hp
    replace hp : p ∈ w.index.visited := hp
    show ((w.index.erase ids).seg p).index.Unshadowed
    rw [hseg, if_pos hp]
    exact (h.unshadowed p hp).eraseBatch (hshape.wf p) ids
  · intro p hp x v hx
    obtain ⟨hx, hid⟩ := (hholds p hp x v).mp hx
    exact (hlive x v).mpr ⟨h.sound p hp x v hx, hid⟩
  · intro x v hmem
    obtain ⟨hmem, hid⟩ := (hlive x v).mp hmem
    obtain ⟨p, hp, hx⟩ := h.complete x v hmem
    exact ⟨p, hp, (hholds p (hvis.owners hp) x v).mpr ⟨hx, hid⟩⟩
  · intro p hp q hq hne x v v' hx hx'
    exact h.disjoint p hp q hq hne x v v' ((hholds p (hvis.owners hp) x v).mp hx).1
      ((hholds q (hvis.owners hq) x v').mp hx').1

/-- Every step keeps rows and live rows in agreement. -/
theorem step (h : Documents base live w) (hshape : Shape w) (halign : AlignedAll base w)
    (hvis : Visited w) {changes : List (Change B ID Vec)} {w' : Work B ID}
    (hstep : Step rt changes w w') (hfresh : PutsFresh live changes) :
    Documents base (changes.foldl Change.apply live) w' := by
  cases hstep with
  | append _ rows =>
    obtain ⟨hnodup, hnew⟩ := putsFresh_puts.mp hfresh
    rw [foldl_apply_puts]
    exact h.append hshape halign hvis hnodup hnew
  | sealLast _ idle full stored => exact h.sealLast hshape stored rfl
  | report =>
    obtain ⟨calls, hcalls⟩ := w.index.notify_eq [] w.fresh
    rw [hcalls]
    exact h.transfer (fun _ => rfl) (fun _ hp => hp) (fun _ => Iff.rfl)
  | merge hmerge =>
    cases hmerge with
    | join j reported left right kinds => exact h.join hshape halign hvis left right rfl
    | finish => exact h.finish hshape hvis rfl
    | compact idle =>
      refine h.transfer (fun _ => rfl) (fun _ hp => hp) (fun p => ?_)
      rw [Index.mem_owners, Index.mem_owners]
      show p ∈ w.index.compactLevels.current ∨ _ ↔ _
      rw [Index.current_compactLevels]
      rfl
  | elsewhere _ n => exact h.transfer (fun _ => rfl) (fun _ hp => hp) (fun _ => Iff.rfl)
  | erase _ ids => exact h.erase hshape hvis ids
  | push _ wf idle stored => exact absurd hfresh id

theorem not_push_of_putsFresh {live : List (ID × Vec)} {changes : List (Change B ID Vec)}
    (h : PutsFresh live changes) (segment : Segment B ID) : .push segment ∉ changes := by
  induction changes generalizing live with
  | nil => exact List.not_mem_nil
  | cons c changes ih =>
    intro hmem
    cases c with
    | put x v =>
      rcases List.mem_cons.mp hmem with heq | hmem
      · cases heq
      · exact ih h.2 hmem
    | drop ids =>
      rcases List.mem_cons.mp hmem with heq | hmem
      · cases heq
      · exact ih h hmem
    | push s => exact h

/-- After every history that adds only ids that are not live. -/
theorem of_run (base : StoringBase rt.faiss) {config : IndexConfig} {callback : Bool}
    {draws : Nat} {edits : List (Edit ID Vec)} {st : Index B ID}
    (hrun : (Index.create rt config callback draws).run rt (edits.map Edit.op) = .ok st)
    (hrand : ∀ m < st.draws, ∀ n < st.draws, rt.rand m = rt.rand n → m = n)
    (hfresh : AddsFresh [] edits) :
    Shape st.rest ∧ Visited st.rest ∧ AlignedAll base st.rest ∧
      Documents base (liveRows edits) st.rest := by
  obtain ⟨hsound, hdoc⟩ := (Sound.create rt config callback draws).invariant
    (P := fun ks u => PutsFresh [] ks →
      AlignedAll base u ∧ Documents base (ks.foldl Change.apply []) u)
    (Index.run_runs hrun) (distinctIds_of_edits hrand edits)
    (fun ks ls u v _ hu hstep hks hfresh => by
      rw [putsFresh_append] at hfresh
      rw [List.foldl_append]
      obtain ⟨halign, hdoc⟩ := hks hfresh.1
      exact ⟨halign.step hstep fun segment hmem =>
          absurd hmem (not_push_of_putsFresh hfresh.2 segment),
        hdoc.step hu.shape halign hu.visited hstep hfresh.2⟩)
    (fun _ => ⟨AlignedAll.create base config callback draws, create base config callback draws⟩)
  obtain ⟨halign, hdoc⟩ := hdoc hfresh.putsFresh
  rw [foldl_apply_changes] at hdoc
  exact ⟨hsound.shape, hsound.visited, halign, hdoc⟩

end Documents

end Vecodex
