import Vecodex.Laws.Deletion
import Vecodex.Laws.ResultLists

/-!
# The live ids of an index, call by call

An `add` makes its ids live and an `erase` that reaches all copies of an id makes this id dead;
neither changes any other id. A merge on the way moves live vectors between segments and drops
references to segments. It drops by segment id, so with equal values of `rand()` it may drop a
segment that was not absorbed. Nothing is lost by this, because every live id of a segment that a
search visits is also live in the levels or the open segment (`Backed`).
-/

namespace Vecodex

open Lib

variable {B ID Vec Dist : Type} [LinearOrder ID]

/-- The id is live in the levels or the open segment. -/
def Index.Owned (idx : Index B ID) (x : ID) : Prop :=
  ∃ p ∈ idx.owners, (idx.seg p).index.LiveId x

omit [LinearOrder ID] in
theorem exists_put_mem {rows : List (ID × Vec)} {x : ID} :
    (∃ v, .put x v ∈ (rows.map fun r => .put r.1 r.2 : List (Change B ID Vec))) ↔
      x ∈ rows.map Prod.fst := by
  simp

/-- What is live in a segment that a search visits is live in the levels or the open segment. -/
def Backed (w : Work B ID) : Prop :=
  ∀ p ∈ w.index.visited, ∀ x, (w.index.seg p).index.LiveId x → w.index.Owned x

theorem Index.mem_liveIds_iff_owned {idx : Index B ID} (h : Backed idx.rest) {x : ID} :
    x ∈ idx.liveIds ↔ idx.Owned x := by
  rw [Index.mem_liveIds]
  constructor
  · rintro ⟨p, hp | hp, hlive⟩
    · exact ⟨p, Index.mem_owners.mpr (Or.inl hp), hlive⟩
    · exact h p hp x hlive
  · rintro ⟨p, hp, hlive⟩
    refine ⟨p, ?_, hlive⟩
    exact (Index.mem_owners.mp hp).imp_right fun hlast => Index.mem_visited.mpr (Or.inr hlast)

namespace Backed

variable {rt : Runtime B ID Vec Dist} {w : Work B ID}

omit [LinearOrder ID] in
theorem create (rt : Runtime B ID Vec Dist) (config : IndexConfig) (callback : Bool)
    (draws : Nat) : Backed (Index.create rt config callback draws : Index B ID).rest := by
  rintro p _ x ⟨pos, hlive⟩
  replace hlive : ((Index.create rt config callback draws : Index B ID).seg p).index.LiveAt pos x :=
    hlive
  rw [Index.create_seg] at hlive
  exact absurd hlive (FaissIndex.not_liveAt_create rt config.kind pos x)

omit [LinearOrder ID] in
/-- A step that leaves the segments and their owners alone and shows a search no segment that
owns nothing. -/
theorem transfer (h : Backed w) {w' : Work B ID} (hseg : ∀ p, w'.index.seg p = w.index.seg p)
    (hvisited : ∀ p ∈ w'.index.visited, p ∈ w.index.visited ∨ p ∈ w.index.owners)
    (howners : ∀ p, p ∈ w'.index.owners ↔ p ∈ w.index.owners) :
    Backed w' ∧ ∀ x, w'.index.Owned x ↔ w.index.Owned x := by
  have howned : ∀ x, w'.index.Owned x ↔ w.index.Owned x := fun x =>
    exists_congr fun p => and_congr (howners p) (by rw [hseg])
  refine ⟨fun p hp x hlive => (howned x).mpr ?_, howned⟩
  rw [hseg] at hlive
  rcases hvisited p hp with hp | hp
  · exact h p hp x hlive
  · exact ⟨p, hp, hlive⟩

/-- New rows go to the open segment. -/
theorem append (h : Backed w) (rt : Runtime B ID Vec Dist) (hshape : Shape w)
    (rows : List (ID × Vec)) :
    Backed { w with index := w.index.appendLast rt rows } ∧
      ∀ x, (w.index.appendLast rt rows).Owned x ↔
        w.index.Owned x ∨ x ∈ rows.map Prod.fst := by
  have hlive : ∀ p x, ((w.index.appendLast rt rows).seg p).index.LiveId x ↔
      (w.index.seg p).index.LiveId x ∨ p = w.index.last ∧ x ∈ rows.map Prod.fst := by
    intro p x
    rw [Index.appendLast_seg]
    split
    · next hp =>
      rw [Segment.addVectorBatch, FaissIndex.addBatch_liveId (hshape.wf p)]
      simp [hp]
    · next hp => simp [hp]
  have howned : ∀ x, (w.index.appendLast rt rows).Owned x ↔
      w.index.Owned x ∨ x ∈ rows.map Prod.fst := by
    intro x
    constructor
    · rintro ⟨p, hp, hx⟩
      rcases (hlive p x).mp hx with hx | ⟨-, hx⟩
      · exact Or.inl ⟨p, hp, hx⟩
      · exact Or.inr hx
    · rintro (⟨p, hp, hx⟩ | hx)
      · exact ⟨p, hp, (hlive p x).mpr (Or.inl hx)⟩
      · exact ⟨w.index.last, Index.mem_owners.mpr (Or.inr rfl),
          (hlive _ x).mpr (Or.inr ⟨rfl, hx⟩)⟩
  refine ⟨fun p hp x hx => (howned x).mpr ?_, howned⟩
  rcases (hlive p x).mp hx with hx | ⟨-, hx⟩
  · exact Or.inl (h p hp x hx)
  · exact Or.inr hx

/-- The open segment joins the levels and an empty one takes its place. -/
theorem sealLast (h : Backed w) (hshape : Shape w) {idx : Index B ID}
    (stored : w.index.storageAdd w.index.last = .ok idx) {w' : Work B ID}
    (hw' : w'.index = idx.openNext rt) :
    Backed w' ∧ ∀ x, w'.index.Owned x ↔ w.index.Owned x := by
  have hlive : ∀ p x, (w'.index.seg p).index.LiveId x ↔
      p ≠ w.index.heap.next ∧ (w.index.seg p).index.LiveId x := by
    intro p x
    rw [hw', Index.openNext_seg stored]
    split
    · next hp =>
      refine iff_of_false ?_ fun hx => hx.1 hp
      rintro ⟨pos, hpos⟩
      exact FaissIndex.not_liveAt_create rt _ pos x hpos
    · next hp => simp [hp]
  have howners : ∀ p, p ∈ w'.index.owners ↔ p ∈ w.index.owners ∨ p = w.index.heap.next := by
    intro p
    rw [Index.mem_owners, Index.mem_owners, hw', Index.mem_openNext_current stored,
      Index.openNext_last stored]
  have howned : ∀ x, w'.index.Owned x ↔ w.index.Owned x := by
    intro x
    constructor
    · rintro ⟨p, hp, hx⟩
      obtain ⟨hne, hx⟩ := (hlive p x).mp hx
      exact ⟨p, ((howners p).mp hp).resolve_right hne, hx⟩
    · rintro ⟨p, hp, hx⟩
      have hlt : p < w.index.heap.next := hshape.owner_alloc (Index.mem_owners.mp hp)
      exact ⟨p, (howners p).mpr (Or.inl hp), (hlive p x).mpr ⟨Nat.ne_of_lt hlt, hx⟩⟩
  refine ⟨fun p hp x hx => (howned x).mpr ?_, howned⟩
  obtain ⟨hne, hx⟩ := (hlive p x).mp hx
  rw [hw', Index.mem_openNext_visited stored] at hp
  exact h p (hp.resolve_right hne) x hx

/-- The survivor of a join takes over the live ids of the absorbed segment. -/
theorem join (h : Backed w) (hshape : Shape w) {j a b : Nat}
    (left : w.index.levels.cell w.level j = some a)
    (right : w.index.levels.cell w.level (j + 1) = some b) {w' : Work B ID}
    (hw' : w'.index = w.index.join rt w.level j a b) :
    Backed w' ∧ ∀ x, w'.index.Owned x ↔ w.index.Owned x := by
  obtain ⟨-, hne, -, -⟩ := hshape.join_cells rt left right
  have hac : a ∈ w.index.owners := Index.mem_owners.mpr (Or.inl (Index.mem_current_of_cell left))
  have hbc : b ∈ w.index.owners := Index.mem_owners.mpr (Or.inl (Index.mem_current_of_cell right))
  have hlive : ∀ p x, (w'.index.seg p).index.LiveId x ↔
      (w.index.seg p).index.LiveId x ∨ p = a ∧ (w.index.seg b).index.LiveId x := by
    intro p x
    rw [hw', Index.join_seg]
    split
    · next hp =>
      subst hp
      rw [FaissIndex.addBatch_liveId (hshape.wf p), FaissIndex.mem_survivors_ids]
      simp
    · next hp => simp [hp]
  have howners : ∀ p, p ∈ w'.index.owners ↔ p ∈ w.index.owners ∧ p ≠ b := fun p =>
    hw' ▸ hshape.mem_join_owners rt left right
  have howned : ∀ x, w'.index.Owned x ↔ w.index.Owned x := by
    intro x
    constructor
    · rintro ⟨p, hp, hx⟩
      rcases (hlive p x).mp hx with hx | ⟨-, hx⟩
      · exact ⟨p, ((howners p).mp hp).1, hx⟩
      · exact ⟨b, hbc, hx⟩
    · rintro ⟨p, hp, hx⟩
      by_cases hpb : p = b
      · exact ⟨a, (howners a).mpr ⟨hac, hne⟩, (hlive a x).mpr (Or.inr ⟨rfl, hpb ▸ hx⟩)⟩
      · exact ⟨p, (howners p).mpr ⟨hp, hpb⟩, (hlive p x).mpr (Or.inl hx)⟩
  refine ⟨fun p hp x hx => (howned x).mpr ?_, howned⟩
  rcases (hlive p x).mp hx with hx | ⟨-, hx⟩
  · rw [hw'] at hp
    exact h p hp x hx
  · exact ⟨b, hbc, hx⟩

/-- A step that only puts rows makes exactly their ids live. -/
theorem step (h : Backed w) (hshape : Shape w) {changes : List (Change B ID Vec)}
    {w' : Work B ID} (hstep : Step rt changes w w')
    (hputs : ∀ c ∈ changes, ∃ x v, c = .put x v) :
    Backed w' ∧ ∀ x, w'.index.Owned x ↔ w.index.Owned x ∨ ∃ v, .put x v ∈ changes := by
  -- a step without changes leaves the owned ids as they are
  have hsilent : ∀ {w' : Work B ID},
      (Backed w' ∧ ∀ x, w'.index.Owned x ↔ w.index.Owned x) →
      Backed w' ∧ ∀ x, w'.index.Owned x ↔
        w.index.Owned x ∨ ∃ v, .put x v ∈ ([] : List (Change B ID Vec)) := by
    rintro w' ⟨hbacked, howned⟩
    refine ⟨hbacked, fun x => ?_⟩
    simp only [howned, List.not_mem_nil, exists_false, or_false]
  cases hstep with
  | append _ rows =>
    obtain ⟨hbacked, howned⟩ := h.append rt hshape rows
    refine ⟨hbacked, fun x => ?_⟩
    rw [exists_put_mem]
    exact howned x
  | sealLast _ idle full stored => exact hsilent (h.sealLast hshape stored rfl)
  | report =>
    obtain ⟨calls, hcalls⟩ := w.index.notify_eq [] w.fresh
    apply hsilent
    rw [hcalls]
    exact h.transfer (fun _ => rfl) (fun _ => Or.inl) fun _ => Iff.rfl
  | merge hmerge =>
    cases hmerge with
    | join j reported left right kinds => exact hsilent (h.join hshape left right rfl)
    | finish =>
      have hvisited : ∀ p ∈ (w.index.finishPass w.erased w.inserted).visited,
          p ∈ w.index.visited ∨ p ∈ w.index.owners := fun p hp =>
        (hshape.visited_finishPass hp).imp_right fun hc => Index.mem_owners.mpr (Or.inl hc)
      obtain ⟨segments, trace, calls, heq, -, -⟩ := w.index.finishPass_eq w.erased w.inserted
      apply hsilent
      rw [heq] at hvisited ⊢
      exact h.transfer (fun _ => rfl) hvisited fun _ => Iff.rfl
    | compact idle =>
      have hcurrent := w.index.current_compactLevels
      refine hsilent (h.transfer (fun _ => rfl) (fun _ => Or.inl) fun p => ?_)
      rw [Index.mem_owners, Index.mem_owners]
      exact or_congr_left (by rw [hcurrent])
  | elsewhere _ n => exact hsilent (h.transfer (fun _ => rfl) (fun _ => Or.inl) fun _ => Iff.rfl)
  | erase _ ids =>
    obtain ⟨x, v, heq⟩ := hputs _ List.mem_cons_self
    cases heq
  | push _ wf idle stored =>
    obtain ⟨x, v, heq⟩ := hputs _ List.mem_cons_self
    cases heq

/-- An `add` makes exactly its ids live. -/
theorem add {idx idx' : Index B ID} (h : Backed idx.rest) (hshape : Shape idx.rest)
    {rows : List (ID × Vec)} (hadd : idx.add rt rows = .ok idx') :
    Backed idx'.rest ∧ ∀ x, x ∈ idx'.liveIds ↔ x ∈ idx.liveIds ∨ x ∈ rows.map Prod.fst := by
  have hputs : ∀ c ∈ (rows.map fun r => .put r.1 r.2 : List (Change B ID Vec)),
      ∃ x v, c = .put x v := by
    intro c hc
    obtain ⟨r, -, rfl⟩ := List.mem_map.mp hc
    exact ⟨r.1, r.2, rfl⟩
  have hall : Shape idx'.rest ∧ ((∀ c ∈ (rows.map fun r => .put r.1 r.2 : List (Change B ID Vec)),
      ∃ x v, c = .put x v) → Backed idx'.rest ∧ ∀ x, idx'.Owned x ↔
        idx.Owned x ∨
          ∃ v, .put x v ∈ (rows.map fun r => .put r.1 r.2 : List (Change B ID Vec))) := by
    refine (Index.add_runs hadd).invariant (P := fun ks u => Shape u ∧
      ((∀ c ∈ ks, ∃ x v, c = Change.put x v) →
        Backed u ∧ ∀ x, u.index.Owned x ↔ idx.Owned x ∨ ∃ v, .put x v ∈ ks)) ?_ ?_
    · intro ks ls u v hu hstep
      refine ⟨hu.1.step hstep, fun hks => ?_⟩
      rw [List.forall_mem_append] at hks
      obtain ⟨hbacked, howned⟩ := hu.2 hks.1
      obtain ⟨hbacked', howned'⟩ := hbacked.step hu.1 hstep hks.2
      refine ⟨hbacked', fun x => ?_⟩
      simp only [howned', howned, List.mem_append, exists_or, or_assoc]
    · refine ⟨hshape, fun _ => ⟨h, fun x => ?_⟩⟩
      simp only [List.not_mem_nil, exists_false, or_false, Index.rest]
  obtain ⟨hbacked, howned⟩ := hall.2 hputs
  refine ⟨hbacked, fun x => ?_⟩
  rw [Index.mem_liveIds_iff_owned hbacked, Index.mem_liveIds_iff_owned h,
    ← exists_put_mem (B := B)]
  exact howned x

end Backed

/-! ## `erase` -/

/-- An `erase` of one id leaves the other ids alone. -/
theorem Index.erase_liveId_of_ne {idx : Index B ID} (hshape : Shape idx.rest) {x y : ID}
    (hne : y ≠ x) (p : Nat) :
    ((idx.erase [x]).seg p).index.LiveId y ↔ (idx.seg p).index.LiveId y := by
  rw [Index.erase_seg]
  split
  · have hwf : (idx.seg p).index.Wf := hshape.wf p
    refine exists_congr fun pos => (FaissIndex.eraseBatch_liveAt hwf [x] pos y).trans ?_
    simp [hne]
  · exact Iff.rfl

/-- An `erase` of one id takes the id from the live ones when it reaches all its copies, and
changes nothing of them when it does not. -/
theorem Index.liveIds_erase {idx : Index B ID} (hshape : Shape idx.rest) (x : ID) :
    (idx.Reaches x → (idx.erase [x]).liveIds = idx.liveIds.erase x) ∧
      (¬ idx.Reaches x → (idx.erase [x]).liveIds = idx.liveIds ∧ x ∈ idx.liveIds) := by
  have hother : ∀ y ≠ x, y ∈ (idx.erase [x]).liveIds ↔ y ∈ idx.liveIds := by
    intro y hne
    rw [Index.mem_liveIds, Index.mem_liveIds]
    exact exists_congr fun p => and_congr Iff.rfl (Index.erase_liveId_of_ne hshape hne p)
  have hself : x ∉ (idx.erase [x]).liveIds ↔ idx.Reaches x := by
    rw [← Index.noCopy_erase_iff hshape List.mem_cons_self, Index.mem_liveIds]
    constructor
    · exact fun hnone p hp hlive => hnone ⟨p, hp.symm, hlive⟩
    · rintro hnone ⟨p, hp, hlive⟩
      exact hnone p hp.symm hlive
  refine ⟨fun hreach => ?_, fun hmiss => ?_⟩
  · ext y
    rw [Finset.mem_erase]
    by_cases hy : y = x
    · subst hy
      simp [hself.mpr hreach]
    · simp [hother y hy, hy]
  · -- a copy that the erase does not find was there before
    have hstays : x ∈ (idx.erase [x]).liveIds := by
      by_contra hout
      exact hmiss (hself.mp hout)
    have hbefore : x ∈ idx.liveIds := by
      by_contra hout
      refine hmiss fun p hp pos hlive => absurd ?_ hout
      exact Index.mem_liveIds.mpr ⟨p, hp.symm, pos, hlive⟩
    refine ⟨?_, hbefore⟩
    ext y
    by_cases hy : y = x
    · subst hy
      exact iff_of_true hstays hbefore
    · exact hother y hy

theorem Backed.erase {idx : Index B ID} (h : Backed idx.rest) (hshape : Shape idx.rest) {x : ID}
    (hreach : idx.Reaches x) : Backed (idx.erase [x]).rest := by
  have hnone : NoCopy x (idx.erase [x]).rest :=
    (Index.noCopy_erase_iff hshape List.mem_cons_self).mpr hreach
  intro p hp y hlive
  have hne : y ≠ x := by
    rintro rfl
    exact hnone p (Or.inl hp) hlive
  obtain ⟨q, hq, hlive⟩ := h p hp y ((Index.erase_liveId_of_ne hshape hne p).mp hlive)
  exact ⟨q, hq, (Index.erase_liveId_of_ne hshape hne q).mpr hlive⟩

end Vecodex
