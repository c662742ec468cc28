import Vecodex.Laws.Documents
import Vecodex.Laws.Sizes

/-!
# Ids that are never added twice

When no id is added twice, every id has one position in one segment. `FaissIndex.BoundOnce` says so
of a wrapper and `Index.Tidy` of an index. The size of a wrapper is then the number of its live
ids (`BoundOnce.net_eq`), it never wraps, and joining two segments adds their sizes
(`card_liveIds_merge`).

Erased ids count: a segment keeps the positions of the ids that were erased in it, and `Tidy` keeps
them apart too. The absorbed segment of a join leaves its erased ids behind.
-/

namespace Vecodex

open Lib

variable {B ID Vec Dist : Type}

namespace FaissIndex

/-- Every id has one position at most. -/
def BoundOnce (f : FaissIndex B ID) : Prop :=
  ∀ p q x, f.invIds.lookup p = some x → f.invIds.lookup q = some x → p = q

theorem boundOnce_create (rt : Runtime B ID Vec Dist) (kind : BaseKind) :
    (create rt kind : FaissIndex B ID).BoundOnce := by
  intro p q x hp
  simp [create] at hp

theorem not_mem_ids_create (rt : Runtime B ID Vec Dist) (kind : BaseKind) (x : ID) :
    x ∉ (create rt kind : FaissIndex B ID).ids := by
  simp [create]

variable [DecidableEq ID]

theorem LiveId.mem_ids {f : FaissIndex B ID} (hf : f.Wf) {x : ID} (h : f.LiveId x) :
    x ∈ f.ids := by
  obtain ⟨p, hp⟩ := h
  exact hf.mem_ids hp.1

theorem mem_addBatch_ids {f : FaissIndex B ID} (hf : f.Wf) (rt : Runtime B ID Vec Dist)
    (batch : List (ID × Vec)) (x : ID) :
    x ∈ (f.addBatch rt batch).ids ↔ x ∈ f.ids ∨ x ∈ batch.map Prod.fst := by
  simp only [(hf.addBatch rt batch).mem_ids_iff, hf.mem_ids_iff, addBatch_lookup_inv]
  constructor
  · intro ⟨p, hp⟩
    split at hp
    · obtain ⟨r, hr, rfl⟩ := Option.map_eq_some_iff.mp hp
      exact Or.inr (List.mem_map_of_mem (List.mem_of_getElem? hr))
    · exact Or.inl ⟨p, hp⟩
  · rintro (⟨p, hp⟩ | hx)
    · refine ⟨p, ?_⟩
      rw [if_neg fun hin => ?_, hp]
      rw [hf.lookup_none hin.1] at hp
      cases hp
    · obtain ⟨i, hi⟩ := List.mem_iff_getElem?.mp hx
      have hlt : i < batch.length := by
        simpa only [List.length_map] using (List.getElem?_eq_some_iff.mp hi).1
      refine ⟨f.nextId + i, ?_⟩
      rw [if_pos (by omega), Nat.add_sub_cancel_left, ← List.getElem?_map, hi]

namespace BoundOnce

variable {f : FaissIndex B ID}

/-- An erase finds the one position of an id. -/
theorem unshadowed (hf : f.Wf) (h : f.BoundOnce) : f.Unshadowed := by
  intro x p hp
  exact (hf.latest x p).mpr ⟨hp.1, fun q hq => (h q p x hq hp.1).le⟩

/-- The size is the number of live ids. -/
theorem net_eq (hf : f.Wf) (h : f.BoundOnce) : f.net = f.liveIds.card :=
  (net_eq_iff hf).mpr fun p _ x hp q hq => h q p x hq hp

theorem size_le (hf : f.Wf) (h : f.BoundOnce) : f.size ≤ f.liveIds.card := by
  have hnet := h.net_eq hf
  show sizeT f.net ≤ _
  rw [hnet]
  unfold sizeT
  omega

theorem size_eq (hf : f.Wf) (h : f.BoundOnce) (hfit : f.liveIds.card < 2 ^ 64) :
    f.size = f.liveIds.card := by
  have hnet := h.net_eq hf
  show sizeT f.net = _
  rw [hnet]
  unfold sizeT
  omega

theorem eraseBatch (h : f.BoundOnce) (ids : List ID) : (f.eraseBatch ids).BoundOnce := by
  unfold BoundOnce
  rw [eraseBatch_invIds]
  exact h

/-- A batch of new ids, each named once, gives each of them one position. -/
theorem addBatch (hf : f.Wf) (h : f.BoundOnce) (rt : Runtime B ID Vec Dist)
    {batch : List (ID × Vec)} (hnodup : (batch.map Prod.fst).Nodup)
    (hfresh : ∀ x ∈ batch.map Prod.fst, x ∉ f.ids) : (f.addBatch rt batch).BoundOnce := by
  -- a position of the batch is behind the old ones and names an id of the batch
  have hcase : ∀ {p : Nat} {x : ID}, (f.addBatch rt batch).invIds.lookup p = some x →
      f.invIds.lookup p = some x ∨
        f.nextId ≤ p ∧ (batch.map Prod.fst)[p - f.nextId]? = some x := by
    intro p x hp
    rw [addBatch_lookup_inv] at hp
    split at hp
    · next hin => exact Or.inr ⟨hin.1, by rw [List.getElem?_map, hp]⟩
    · exact Or.inl hp
  have hclash : ∀ {p i : Nat} {x : ID}, f.invIds.lookup p = some x →
      (batch.map Prod.fst)[i]? ≠ some x := by
    intro p i x hp hi
    exact hfresh x (List.mem_of_getElem? hi) (hf.mem_ids hp)
  intro p q x hp hq
  rcases hcase hp with hp | ⟨hple, hp⟩
  · rcases hcase hq with hq | ⟨-, hq⟩
    · exact h p q x hp hq
    · exact absurd hq (hclash hp)
  · rcases hcase hq with hq | ⟨hqle, hq⟩
    · exact absurd hp (hclash hq)
    · have hlt := (List.getElem?_eq_some_iff.mp hp).1
      have hsame := (List.getElem?_inj hlt hnodup).mp (hp.trans hq.symm)
      omega

end BoundOnce

/-- A merge brings the live ids of the other wrapper. -/
theorem liveIds_merge {f : FaissIndex B ID} (hf : f.Wf) (rt : Runtime B ID Vec Dist)
    (other : FaissIndex B ID) :
    (f.addBatch rt (other.survivors rt)).liveIds = f.liveIds ∪ other.liveIds := by
  ext x
  simp only [mem_liveIds, Finset.mem_union, addBatch_liveId hf, mem_survivors_ids]

theorem card_liveIds_merge {f other : FaissIndex B ID} (hf : f.Wf) (hother : other.Wf)
    (rt : Runtime B ID Vec Dist) (hapart : ∀ x ∈ f.ids, x ∉ other.ids) :
    (f.addBatch rt (other.survivors rt)).liveIds.card = f.liveIds.card + other.liveIds.card := by
  rw [liveIds_merge hf]
  refine Finset.card_union_of_disjoint (Finset.disjoint_left.mpr fun x hx hother' => ?_)
  exact hapart x ((mem_liveIds.mp hx).mem_ids hf) ((mem_liveIds.mp hother').mem_ids hother)

theorem card_liveIds_eraseBatch {f : FaissIndex B ID} (hf : f.Wf) (ids : List ID) :
    (f.eraseBatch ids).liveIds.card ≤ f.liveIds.card := by
  refine Finset.card_le_card fun x hx => ?_
  obtain ⟨p, hp⟩ := mem_liveIds.mp hx
  exact mem_liveIds.mpr ⟨p, ((eraseBatch_liveAt hf ids p x).mp hp).1⟩

end FaissIndex

/-! ## The segments of an index -/

namespace Index

/-- Every id has one position in one segment, and `used` names them all. -/
structure Tidy (used : List ID) (idx : Index B ID) : Prop where
  once : ∀ p ∈ idx.owners, (idx.seg p).index.BoundOnce
  apart : ∀ p ∈ idx.owners, ∀ q ∈ idx.owners, ∀ x, x ∈ (idx.seg p).index.ids →
    x ∈ (idx.seg q).index.ids → p = q
  used : ∀ p ∈ idx.owners, ∀ x ∈ (idx.seg p).index.ids, x ∈ used

namespace Tidy

variable {rt : Runtime B ID Vec Dist} {used : List ID} {idx idx' : Index B ID}

theorem create (rt : Runtime B ID Vec Dist) (config : IndexConfig) (callback : Bool)
    (draws : Nat) : Tidy [] (create rt config callback draws : Index B ID) := by
  have hnone : ∀ p x, x ∉ ((Index.create rt config callback draws).seg p).index.ids := by
    intro p x
    rw [create_seg]
    exact FaissIndex.not_mem_ids_create rt config.kind x
  constructor
  · intro p _
    rw [create_seg]
    exact FaissIndex.boundOnce_create rt config.kind
  · exact fun p _ q _ x hx => absurd hx (hnone p x)
  · exact fun p _ x hx => absurd hx (hnone p x)

/-- A change that brings no owner and no id. -/
theorem transfer (h : Tidy used idx) (howners : ∀ p ∈ idx'.owners, p ∈ idx.owners)
    (honce : ∀ p ∈ idx'.owners, (idx.seg p).index.BoundOnce → (idx'.seg p).index.BoundOnce)
    (hids : ∀ p ∈ idx'.owners, ∀ x ∈ (idx'.seg p).index.ids, x ∈ (idx.seg p).index.ids) :
    Tidy used idx' where
  once p hp := honce p hp (h.once p (howners p hp))
  apart p hp q hq x hx hx' :=
    h.apart p (howners p hp) q (howners q hq) x (hids p hp x hx) (hids q hq x hx')
  used p hp x hx := h.used p (howners p hp) x (hids p hp x hx)

/-- A change of everything but the segments. -/
theorem congr (h : Tidy used idx) (howners : ∀ p ∈ idx'.owners, p ∈ idx.owners)
    (hseg : ∀ p, idx'.seg p = idx.seg p) : Tidy used idx' := by
  apply h.transfer howners
  · intro p _
    rw [hseg]
    exact id
  · intro p _ x hx
    rwa [hseg] at hx

/-- A sealed segment stays an owner, and the new open one has no id. -/
theorem sealLast (h : Tidy used idx) {st : Index B ID}
    (stored : idx.storageAdd idx.last = .ok st) : Tidy used (st.openNext rt) := by
  have howners : ∀ p ∈ (st.openNext rt).owners, p ≠ idx.heap.next → p ∈ idx.owners := by
    intro p hp hne
    rw [mem_owners, openNext_last stored, mem_openNext_current stored] at hp
    exact mem_owners.mpr (hp.resolve_right hne)
  have hfresh : ∀ x, x ∉ ((st.openNext rt).seg idx.heap.next).index.ids := by
    intro x
    rw [openNext_seg stored, if_pos rfl]
    exact FaissIndex.not_mem_ids_create rt idx.config.kind x
  have hold : ∀ p, p ≠ idx.heap.next → (st.openNext rt).seg p = idx.seg p := by
    intro p hne
    rw [openNext_seg stored, if_neg hne]
  constructor
  · intro p hp
    by_cases hne : p = idx.heap.next
    · rw [hne, openNext_seg stored, if_pos rfl]
      exact FaissIndex.boundOnce_create rt idx.config.kind
    · rw [hold p hne]
      exact h.once p (howners p hp hne)
  · intro p hp q hq x hx hx'
    have hpn : p ≠ idx.heap.next := fun heq => hfresh x (heq ▸ hx)
    have hqn : q ≠ idx.heap.next := fun heq => hfresh x (heq ▸ hx')
    rw [hold p hpn] at hx
    rw [hold q hqn] at hx'
    exact h.apart p (howners p hp hpn) q (howners q hq hqn) x hx hx'
  · intro p hp x hx
    have hpn : p ≠ idx.heap.next := fun heq => hfresh x (heq ▸ hx)
    rw [hold p hpn] at hx
    exact h.used p (howners p hp hpn) x hx

variable [DecidableEq ID]

/-- New ids go to the open segment. -/
theorem append (h : Tidy used idx) (hwf : ∀ p, (idx.seg p).index.Wf) {rows : List (ID × Vec)}
    (hnodup : (used ++ rows.map Prod.fst).Nodup) :
    Tidy (used ++ rows.map Prod.fst) (idx.appendLast rt rows) := by
  obtain ⟨-, hrows, hapart⟩ := List.nodup_append.mp hnodup
  have hids : ∀ p x, x ∈ ((idx.appendLast rt rows).seg p).index.ids ↔
      x ∈ (idx.seg p).index.ids ∨ p = idx.last ∧ x ∈ rows.map Prod.fst := by
    intro p x
    rw [appendLast_seg]
    split
    · next hp =>
      show x ∈ ((idx.seg p).index.addBatch rt rows).ids ↔ _
      rw [FaissIndex.mem_addBatch_ids (hwf p)]
      simp only [hp, true_and]
    · next hp => simp only [hp, false_and, or_false]
  have hnew : ∀ p ∈ idx.owners, ∀ x ∈ rows.map Prod.fst, x ∉ (idx.seg p).index.ids :=
    fun p hp x hx hold => hapart x (h.used p hp x hold) x hx rfl
  constructor
  · intro p hp
    rw [appendLast_seg]
    split
    · exact (h.once p hp).addBatch (hwf p) rt hrows (hnew p hp)
    · exact h.once p hp
  · intro p hp q hq x hx hx'
    rcases (hids p x).mp hx with hold | ⟨hpl, hrow⟩
    · rcases (hids q x).mp hx' with hold' | ⟨-, hrow⟩
      · exact h.apart p hp q hq x hold hold'
      · exact absurd hold (hnew p hp x hrow)
    · rcases (hids q x).mp hx' with hold' | ⟨hql, -⟩
      · exact absurd hold' (hnew q hq x hrow)
      · rw [hpl, hql]
  · intro p hp x hx
    rcases (hids p x).mp hx with hx | ⟨-, hx⟩
    · exact List.mem_append_left _ (h.used p hp x hx)
    · exact List.mem_append_right _ hx

theorem erase (h : Tidy used idx) (ids : List ID) : Tidy used (idx.erase ids) := by
  refine h.transfer (fun p hp => hp) ?_ ?_
  · intro p _ honce
    rw [erase_seg]
    split
    · exact honce.eraseBatch ids
    · exact honce
  · intro p _ x hx
    rw [erase_seg] at hx
    split at hx
    · rwa [show ((idx.seg p).deleteBatch ids).index.ids = (idx.seg p).index.ids from
        FaissIndex.eraseBatch_ids _ ids] at hx
    · exact hx

end Tidy

/-- A segment from outside enters the levels with ids that none has. -/
theorem Tidy.storageAdd {used : List ID} {idx st : Index B ID} (h : Tidy used idx)
    {segment : Segment B ID} (honce : segment.index.BoundOnce)
    (hnew : ∀ x ∈ segment.index.ids, x ∉ used)
    (stored : ({ idx with heap := idx.heap.alloc segment } : Index B ID).storageAdd idx.heap.next =
      .ok st) : Tidy (used ++ segment.index.ids.keys) st := by
  obtain ⟨levels, hperm, rfl⟩ := storageAdd_eq_ok stored
  have howners : ∀ p ∈ levels.items ++ [idx.last], p = idx.heap.next ∨ p ∈ idx.owners := by
    intro p hp
    rw [List.mem_append, hperm.mem_iff, List.mem_cons, List.mem_singleton] at hp
    rw [mem_owners]
    exact or_assoc.mp hp
  have hseg : ∀ p, (idx.heap.alloc segment).get p =
      if p = idx.heap.next then segment else idx.seg p := alloc_seg idx segment
  have hclash : ∀ {p x}, p ∈ idx.owners → x ∈ (idx.seg p).index.ids → x ∉ segment.index.ids :=
    fun hp hx hx' => hnew _ hx' (h.used _ hp _ hx)
  constructor
  · intro p hp
    show ((idx.heap.alloc segment).get p).index.BoundOnce
    rw [hseg]
    split
    · exact honce
    · next hne => exact h.once p ((howners p hp).resolve_left hne)
  · intro p hp q hq x hx hx'
    replace hx : x ∈ ((idx.heap.alloc segment).get p).index.ids := hx
    replace hx' : x ∈ ((idx.heap.alloc segment).get q).index.ids := hx'
    rw [hseg] at hx hx'
    by_cases hpn : p = idx.heap.next
    · by_cases hqn : q = idx.heap.next
      · rw [hpn, hqn]
      · rw [if_pos hpn] at hx
        rw [if_neg hqn] at hx'
        exact absurd hx (hclash ((howners q hq).resolve_left hqn) hx')
    · rw [if_neg hpn] at hx
      by_cases hqn : q = idx.heap.next
      · rw [if_pos hqn] at hx'
        exact absurd hx' (hclash ((howners p hp).resolve_left hpn) hx)
      · rw [if_neg hqn] at hx'
        exact h.apart p ((howners p hp).resolve_left hpn) q ((howners q hq).resolve_left hqn) x
          hx hx'
  · intro p hp x hx
    replace hx : x ∈ ((idx.heap.alloc segment).get p).index.ids := hx
    rw [hseg] at hx
    split at hx
    · exact List.mem_append_right _ (AList.mem_keys.mp hx)
    · next hne =>
      exact List.mem_append_left _ (h.used p ((howners p hp).resolve_left hne) x hx)

variable [DecidableEq ID]

/-- Joined neighbours share no id. -/
theorem Tidy.cells_apart {used : List ID} {w : Work B ID} (h : Tidy used w.index)
    (hshape : Shape w) {j a b : Nat} (left : w.index.levels.cell w.level j = some a)
    (right : w.index.levels.cell w.level (j + 1) = some b) :
    ∀ x ∈ (w.index.seg a).index.ids, x ∉ (w.index.seg b).index.ids := by
  intro x hx hx'
  have ha : a ∈ w.index.owners := mem_owners.mpr (Or.inl (mem_current_of_cell left))
  have hb : b ∈ w.index.owners := mem_owners.mpr (Or.inl (mem_current_of_cell right))
  have hrt : a ≠ b := by
    rintro rfl
    have := Grid.cell_inj hshape.nodup left right
    omega
  exact hrt (h.apart a ha b hb x hx hx')

/-- The survivor of a join takes the live ids of the absorbed segment. -/
theorem Tidy.join {rt : Runtime B ID Vec Dist} {used : List ID} {w : Work B ID}
    (h : Tidy used w.index) (hshape : Shape w) {j a b : Nat}
    (left : w.index.levels.cell w.level j = some a)
    (right : w.index.levels.cell w.level (j + 1) = some b) :
    Tidy used (w.index.join rt w.level j a b) := by
  have ha : a ∈ w.index.owners := mem_owners.mpr (Or.inl (mem_current_of_cell left))
  have hb : b ∈ w.index.owners := mem_owners.mpr (Or.inl (mem_current_of_cell right))
  have howners : ∀ p ∈ (w.index.join rt w.level j a b).owners, p ∈ w.index.owners ∧ p ≠ b :=
    fun p hp => (hshape.mem_join_owners rt left right).mp hp
  -- an id of a segment was its own before, or comes from the absorbed one
  have hids : ∀ p x, x ∈ ((w.index.join rt w.level j a b).seg p).index.ids →
      x ∈ (w.index.seg p).index.ids ∨ p = a ∧ x ∈ (w.index.seg b).index.ids := by
    intro p x hx
    rw [join_seg] at hx
    split at hx
    · next hp =>
      rcases (FaissIndex.mem_addBatch_ids (hshape.wf a) rt _ x).mp hx with hx | hx
      · exact Or.inl (hp ▸ hx)
      · exact Or.inr ⟨hp, ((FaissIndex.mem_survivors_ids rt _ x).mp hx).mem_ids (hshape.wf b)⟩
    · exact Or.inl hx
  constructor
  · intro p hp
    rw [join_seg]
    split
    · refine (h.once a ha).addBatch (hshape.wf a) rt ?_ fun x hx hx' => ?_
      · exact ((h.once b hb).unshadowed (hshape.wf b)).nodup_survivors rt
      · exact h.cells_apart hshape left right x hx'
          (((FaissIndex.mem_survivors_ids rt _ x).mp hx).mem_ids (hshape.wf b))
    · exact h.once p (howners p hp).1
  · intro p hp q hq x hx hx'
    obtain ⟨hp, hpb⟩ := howners p hp
    obtain ⟨hq, hqb⟩ := howners q hq
    rcases hids p x hx with hold | ⟨hpa, hcopy⟩
    · rcases hids q x hx' with hold' | ⟨-, hcopy⟩
      · exact h.apart p hp q hq x hold hold'
      · exact absurd (h.apart p hp b hb x hold hcopy) hpb
    · rcases hids q x hx' with hold' | ⟨hqa, -⟩
      · exact absurd (h.apart q hq b hb x hold' hcopy) hqb
      · rw [hpa, hqa]
  · intro p hp x hx
    rcases hids p x hx with hold | ⟨-, hcopy⟩
    · exact h.used p (howners p hp).1 x hold
    · exact h.used b hb x hcopy

/-- The end of a pass and the compaction leave the segments alone. -/
theorem Tidy.mergeStep {rt : Runtime B ID Vec Dist} {used : List ID} {w w' : Work B ID}
    (h : Tidy used w.index) (hshape : Shape w) (hstep : MergeStep rt w w') :
    Tidy used w'.index := by
  cases hstep with
  | join j reported left right kinds => exact h.join hshape left right
  | finish =>
    obtain ⟨segments, trace, calls, heq, -, -⟩ := w.index.finishPass_eq w.erased w.inserted
    show Tidy used (w.index.finishPass w.erased w.inserted)
    rw [heq]
    exact h.congr (fun p hp => hp) fun p => rfl
  | compact idle =>
    refine h.congr (fun p hp => ?_) fun p => rfl
    rw [mem_owners] at hp ⊢
    rwa [current_compactLevels] at hp

end Index

end Vecodex
