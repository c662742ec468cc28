import Mathlib.Algebra.Order.BigOperators.Group.Finset
import Vecodex.Laws.Documents
import Vecodex.Laws.Feed

/-!
# The contents of an index that grows

What a `Growth` does to the rows of the segments: the open segment takes the added rows, a segment
takes those of the neighbour it absorbs, and nothing else changes. So no segment loses a row
(`Growth.holds_mono`), a segment other than the open one changes only under a new id
(`Growth.seg_cases`), and the segments that hold the documents bind no more positions than rows were
added (`Bounded`).
-/

namespace Vecodex

open Lib

variable {B ID Vec Dist : Type}

section Rows

variable {rt : Runtime B ID Vec Dist} {base : StoringBase rt.faiss} {w w' : Work B ID}
variable {rows : List (ID × Vec)}

variable [DecidableEq ID]

theorem AlignedAll.grow (h : AlignedAll base w) (hgrowth : Growth rt rows w w') :
    AlignedAll base w' := by
  intro p
  cases hgrowth with
  | appended _ rows =>
    show ((w.index.appendLast rt rows).seg p).index.Aligned base
    rw [Index.appendLast_seg]
    split
    · exact (h p).addBatch base rows
    · exact h p
  | quiet heap =>
    rw [Growth.quiet_seg heap]
    exact h p
  | sealed heap =>
    rw [Growth.sealed_seg heap]
    split
    · exact FaissIndex.aligned_create base _
    · exact h p
  | joined _ _ _ index =>
    rw [index, Index.join_seg]
    split
    · exact (h _).addBatch base _
    · exact h p

/-- No segment loses a row. -/
theorem Growth.holds_mono (hgrowth : Growth rt rows w w') (hshape : Shape w)
    (halign : AlignedAll base w) {p : Nat} (hp : w.index.heap.Alloc p) {x : ID} {v : Vec}
    (h : (w.index.seg p).index.Holds base x v) : (w'.index.seg p).index.Holds base x v := by
  cases hgrowth with
  | appended _ rows => exact (halign.appendLast_holds hshape rows p x v).mpr (Or.inl h)
  | quiet heap =>
    rw [quiet_seg heap]
    exact h
  | sealed heap =>
    rw [sealed_seg heap, if_neg (Nat.ne_of_lt hp)]
    exact h
  | joined _ _ _ index =>
    rw [index]
    exact (halign.join_holds hshape _ _ _ _ p x v).mpr (Or.inl h)

/-- A segment keeps its id, and all but the open one their contents, or the id was just drawn. -/
theorem Growth.seg_cases (hgrowth : Growth rt rows w w') {p : Nat} (hp : w'.index.heap.Alloc p) :
    w.index.heap.Alloc p ∧ w'.index.idOf p = w.index.idOf p ∧
        (p ≠ w.index.last → p ≠ w'.index.last ∧ w'.index.seg p = w.index.seg p) ∨
      w.index.draws < w'.index.draws ∧ w'.index.idOf p = rt.rand w.index.draws := by
  cases hgrowth with
  | appended _ rows =>
    refine Or.inl ⟨hp, w.index.appendLast_idOf rt rows p, fun hne => ⟨hne, ?_⟩⟩
    show (w.index.appendLast rt rows).seg p = _
    rw [Index.appendLast_seg, if_neg hne]
  | quiet heap last =>
    have hseg := quiet_seg heap p
    exact Or.inl ⟨heap ▸ hp, congrArg Segment.segId hseg, fun hne => ⟨last ▸ hne, hseg⟩⟩
  | sealed heap last draws =>
    rw [heap] at hp
    have hseg := sealed_seg heap p
    rcases Heap.alloc_cases hp with ⟨hp, -⟩ | ⟨rfl, -⟩
    · rw [if_neg (Nat.ne_of_lt hp)] at hseg
      exact Or.inl ⟨hp, congrArg Segment.segId hseg,
        fun _ => ⟨last ▸ Nat.ne_of_lt hp, hseg⟩⟩
    · rw [if_pos rfl] at hseg
      exact Or.inr ⟨draws ▸ Nat.lt_succ_self _, congrArg Segment.segId hseg⟩
  | @joined _ _ j a b _ _ _ index =>
    have hseg := w.index.join_seg rt w.level j a b p
    rw [← index] at hseg
    by_cases hpa : p = a
    · rw [if_pos hpa] at hseg
      exact Or.inr ⟨index ▸ Nat.lt_succ_self _, congrArg Segment.segId hseg⟩
    · rw [if_neg hpa] at hseg
      have hlast : w'.index.last = w.index.last := by rw [index]; rfl
      rw [index] at hp
      exact Or.inl ⟨hp, congrArg Segment.segId hseg, fun hne => ⟨hlast ▸ hne, hseg⟩⟩

/-! ## What is pending -/

theorem Growth.pending_mono (hgrowth : Growth rt rows w w') {n p : Nat}
    (hn : n ≤ w.index.calls.length) (h : w.Pending n p) : w'.Pending n p := by
  cases hgrowth with
  | appended => exact h
  | quiet _ _ _ _ _ _ pending => exact (pending n hn p).mpr h
  | sealed _ _ _ _ fresh calls inserted =>
    exact (sealed_pending fresh calls inserted n p).mpr (Or.inl h)
  | joined reported _ _ index fresh inserted =>
    exact (joined_pending reported index fresh inserted n p).mpr (Or.inl h)

theorem Growth.doomed_mono (hgrowth : Growth rt rows w w') {n id : Nat}
    (hn : n ≤ w.index.calls.length) (h : w.Doomed n id) : w'.Doomed n id := by
  cases hgrowth with
  | appended => exact h
  | quiet _ _ _ _ _ _ _ doomed => exact (doomed n hn id).mpr h
  | sealed _ _ _ _ _ calls _ erased => exact (sealed_doomed calls erased n id).mpr h
  | joined _ _ _ index _ _ erased => exact (joined_doomed index erased n id).mpr (Or.inl h)

/-- A known id stays known: a segment that is renamed leaves its id to be erased. -/
theorem Growth.known_mono (hgrowth : Growth rt rows w w') {id : Nat} (h : w.Known id) :
    w'.Known id := by
  rcases h with ⟨p, hp, rfl⟩ | hdoomed
  · have hkeep : w'.index.seg p = w.index.seg p → w'.Known (w.index.idOf p) := fun hseg =>
      Or.inl ⟨p, hgrowth.alloc_mono hp, congrArg Segment.segId hseg⟩
    cases hgrowth with
    | appended _ rows => exact Or.inl ⟨p, hp, w.index.appendLast_idOf rt rows p⟩
    | quiet heap => exact hkeep (quiet_seg heap p)
    | sealed heap => exact hkeep ((sealed_seg heap p).trans (if_neg (Nat.ne_of_lt hp)))
    | @joined _ _ j a b _ _ _ index _ _ erased =>
      by_cases hpa : p = a
      · exact Or.inr ((joined_doomed index erased 0 _).mpr (Or.inr (Or.inr (hpa ▸ rfl))))
      · refine hkeep ?_
        rw [index, Index.join_seg, if_neg hpa]
  · exact Or.inr (hgrowth.doomed_mono (Nat.zero_le _) hdoomed)

/-- A segment of the levels was there before, as it is, or it is pending. -/
theorem Growth.current_cases (hgrowth : Growth rt rows w w') (hshape : Shape w) {p : Nat}
    (hp : p ∈ w'.index.current) :
    p ∈ w.index.current ∧ w'.index.seg p = w.index.seg p ∨ ∀ n, w'.Pending n p := by
  cases hgrowth with
  | appended _ rows =>
    refine Or.inl ⟨hp, ?_⟩
    show (w.index.appendLast rt rows).seg p = _
    rw [Index.appendLast_seg, if_neg]
    exact fun heq => hshape.last_current (heq ▸ hp)
  | quiet heap _ _ current => exact Or.inl ⟨(current p).mp hp, quiet_seg heap p⟩
  | sealed heap _ _ current fresh calls inserted =>
    rcases (current p).mp hp with hp | hlast
    · exact Or.inl ⟨hp, (sealed_seg heap p).trans
        (if_neg (Nat.ne_of_lt (hshape.current_alloc p hp)))⟩
    · exact Or.inr fun n => (sealed_pending fresh calls inserted n p).mpr (Or.inr hlast)
  | @joined _ _ j a b reported left right index fresh inserted =>
    by_cases hpa : p = a
    · exact Or.inr fun n => (joined_pending reported index fresh inserted n p).mpr (Or.inr hpa)
    · rw [index] at hp ⊢
      exact Or.inl ⟨((hshape.mem_join_current rt left right).mp hp).1,
        (w.index.join_seg rt w.level j a b p).trans (if_neg hpa)⟩

/-- A segment of the levels stays there under its id, or the id will be erased. -/
theorem Growth.current_keeps (hgrowth : Growth rt rows w w') (hshape : Shape w) {p : Nat}
    (hp : p ∈ w.index.current) :
    p ∈ w'.index.current ∧ w'.index.idOf p = w.index.idOf p ∨
      ∀ n, w'.Doomed n (w.index.idOf p) := by
  cases hgrowth with
  | appended _ rows => exact Or.inl ⟨hp, w.index.appendLast_idOf rt rows p⟩
  | quiet heap _ _ current =>
    exact Or.inl ⟨(current p).mpr hp, congrArg Segment.segId (quiet_seg heap p)⟩
  | sealed heap _ _ current =>
    refine Or.inl ⟨(current p).mpr (Or.inl hp), congrArg Segment.segId ?_⟩
    exact (sealed_seg heap p).trans (if_neg (Nat.ne_of_lt (hshape.current_alloc p hp)))
  | @joined _ _ j a b _ left right index _ _ erased =>
    have hdoomed := fun n => joined_doomed index erased n (w.index.idOf p)
    by_cases hpb : p = b
    · exact Or.inr fun n => (hdoomed n).mpr (Or.inr (Or.inl (hpb ▸ rfl)))
    by_cases hpa : p = a
    · exact Or.inr fun n => (hdoomed n).mpr (Or.inr (Or.inr (hpa ▸ rfl)))
    · rw [index]
      exact Or.inl ⟨(hshape.mem_join_current rt left right).mpr ⟨hp, hpb⟩,
        (w.index.join_idOf rt w.level j a b p).trans (if_neg hpa)⟩

/-- A segment is as it was and not the open one, or it is in the levels or open now. -/
theorem Growth.owner_cases (hgrowth : Growth rt rows w w') (hshape : Shape w) {p : Nat}
    (hp : w'.index.heap.Alloc p) :
    w.index.heap.Alloc p ∧ p ≠ w.index.last ∧ w'.index.seg p = w.index.seg p ∨
      p ∈ w'.index.current ∨ p = w'.index.last := by
  by_cases hlast : p = w.index.last
  · right
    cases hgrowth with
    | appended => exact Or.inr hlast
    | quiet _ last => exact Or.inr (last ▸ hlast)
    | sealed _ _ _ current => exact Or.inl ((current p).mpr (Or.inr hlast))
    | joined _ _ _ index => exact Or.inr (hlast.trans (by rw [index]; rfl))
  · cases hgrowth with
    | appended _ rows =>
      refine Or.inl ⟨hp, hlast, ?_⟩
      show (w.index.appendLast rt rows).seg p = _
      rw [Index.appendLast_seg, if_neg hlast]
    | quiet heap => exact Or.inl ⟨heap ▸ hp, hlast, quiet_seg heap p⟩
    | sealed heap last =>
      rw [heap] at hp
      rcases Heap.alloc_cases hp with ⟨hp, -⟩ | ⟨rfl, -⟩
      · exact Or.inl ⟨hp, hlast, (sealed_seg heap p).trans (if_neg (Nat.ne_of_lt hp))⟩
      · exact Or.inr (Or.inr last.symm)
    | @joined _ _ j a b _ left right index =>
      obtain ⟨-, -, ha, -⟩ := hshape.join_cells rt left right
      rw [index] at hp ⊢
      by_cases hpa : p = a
      · exact Or.inr (Or.inl (hpa ▸ ha))
      · exact Or.inl ⟨hp, hlast, (w.index.join_seg rt w.level j a b p).trans (if_neg hpa)⟩

/-- The rows of the levels stay. -/
theorem Growth.levels_mono (hgrowth : Growth rt rows w w') (hshape : Shape w)
    (halign : AlignedAll base w) {x : ID} {v : Vec}
    (h : ∃ p ∈ w.index.current, (w.index.seg p).index.Holds base x v) :
    ∃ p ∈ w'.index.current, (w'.index.seg p).index.Holds base x v := by
  obtain ⟨p, hp, hholds⟩ := h
  have hmono := hgrowth.holds_mono hshape halign (hshape.current_alloc p hp) hholds
  cases hgrowth with
  | appended => exact ⟨p, hp, hmono⟩
  | quiet _ _ _ current => exact ⟨p, (current p).mpr hp, hmono⟩
  | sealed _ _ _ current => exact ⟨p, (current p).mpr (Or.inl hp), hmono⟩
  | @joined _ _ j a b _ left right index =>
    obtain ⟨-, -, ha, -⟩ := hshape.join_cells rt left right
    by_cases hpb : p = b
    · -- the neighbour took the rows
      subst hpb
      rw [index]
      exact ⟨a, ha, (halign.join_holds hshape _ _ _ _ a x v).mpr (Or.inr ⟨rfl, hholds⟩)⟩
    · rw [index] at hmono ⊢
      exact ⟨p, (hshape.mem_join_current rt left right).mpr ⟨hp, hpb⟩, hmono⟩

end Rows

/-! ## How many positions are bound -/

/-- The segments that hold the documents bind at most `k` positions together, and no segment binds
more. -/
structure Bounded (k : Nat) (w : Work B ID) : Prop where
  total : ∑ p ∈ w.index.owners.toFinset, (w.index.seg p).index.nextId ≤ k
  each : ∀ p, (w.index.seg p).index.nextId ≤ k

namespace Bounded

variable {rt : Runtime B ID Vec Dist} {k : Nat} {w w' : Work B ID}

theorem create (rt : Runtime B ID Vec Dist) (k : Nat) (config : IndexConfig) (draws : Nat) :
    Bounded k (Index.create rt config true draws : Index B ID).rest := by
  have hzero : ∀ p, ((Index.create rt config true draws : Index B ID).rest.index.seg p).index.nextId
      = 0 := by
    intro p
    show ((Index.create rt config true draws : Index B ID).seg p).index.nextId = 0
    rw [Index.create_seg]
    rfl
  exact ⟨(Finset.sum_eq_zero fun p _ => hzero p).trans_le (Nat.zero_le k),
    fun p => (hzero p).trans_le (Nat.zero_le k)⟩

theorem mono (h : Bounded k w) {k' : Nat} (hle : k ≤ k') : Bounded k' w :=
  ⟨h.total.trans hle, fun p => (h.each p).trans hle⟩

theorem mem_owners_toFinset {w : Work B ID} {p : Nat} :
    p ∈ w.index.owners.toFinset ↔ p ∈ w.index.current ∨ p = w.index.last := by
  rw [List.mem_toFinset, Index.mem_owners]

variable [DecidableEq ID]

/-- The open segment binds a position for every row it takes. -/
theorem appended (h : Bounded k w) (rows : List (ID × Vec)) :
    Bounded (k + rows.length) { w with index := w.index.appendLast rt rows } := by
  have hsum := h.total
  have hlast : w.index.last ∈ w.index.owners.toFinset := mem_owners_toFinset.mpr (Or.inr rfl)
  have hseg := w.index.appendLast_seg rt rows
  have hnext : ((w.index.appendLast rt rows).seg w.index.last).index.nextId =
      (w.index.seg w.index.last).index.nextId + rows.length := by
    rw [hseg, if_pos rfl]
    exact FaissIndex.addBatch_nextId rt _ rows
  have hrest : ∑ p ∈ w.index.owners.toFinset.erase w.index.last,
      ((w.index.appendLast rt rows).seg p).index.nextId =
      ∑ p ∈ w.index.owners.toFinset.erase w.index.last, (w.index.seg p).index.nextId := by
    refine Finset.sum_congr rfl fun p hp => ?_
    rw [hseg, if_neg (Finset.ne_of_mem_erase hp)]
  constructor
  · show ∑ p ∈ w.index.owners.toFinset, ((w.index.appendLast rt rows).seg p).index.nextId ≤ _
    rw [← Finset.add_sum_erase _ _ hlast] at hsum ⊢
    rw [hrest, hnext]
    omega
  · intro p
    show ((w.index.appendLast rt rows).seg p).index.nextId ≤ _
    by_cases hp : p = w.index.last
    · rw [hp, hnext]
      exact Nat.add_le_add_right (h.each _) _
    · rw [hseg, if_neg hp]
      exact (h.each p).trans (Nat.le_add_right _ _)

omit [DecidableEq ID] in
theorem quiet (h : Bounded k w) (heap : w'.index.heap = w.index.heap)
    (last : w'.index.last = w.index.last)
    (current : ∀ p, p ∈ w'.index.current ↔ p ∈ w.index.current) : Bounded k w' := by
  have howners : w'.index.owners.toFinset = w.index.owners.toFinset := by
    ext p
    rw [mem_owners_toFinset, mem_owners_toFinset, current, last]
  constructor
  · simp only [howners, Growth.quiet_seg heap]
    exact h.total
  · intro p
    rw [Growth.quiet_seg heap]
    exact h.each p

/-- A new segment binds no position. -/
theorem sealed (h : Bounded k w) (hshape : Shape w)
    (heap : w'.index.heap =
      w.index.heap.alloc (Index.freshSegment rt w.index.config w.index.draws))
    (last : w'.index.last = w.index.heap.next)
    (current : ∀ p, p ∈ w'.index.current ↔ p ∈ w.index.current ∨ p = w.index.last) :
    Bounded k w' := by
  have hseg := Growth.sealed_seg heap
  have hnew : w.index.heap.next ∉ w.index.owners.toFinset := fun hmem =>
    Nat.lt_irrefl _ (hshape.owner_alloc (mem_owners_toFinset.mp hmem))
  have howners : w'.index.owners.toFinset = insert w.index.heap.next w.index.owners.toFinset := by
    ext p
    rw [mem_owners_toFinset, Finset.mem_insert, mem_owners_toFinset, current, last, or_comm]
  have hrest : ∑ p ∈ w.index.owners.toFinset, (w'.index.seg p).index.nextId =
      ∑ p ∈ w.index.owners.toFinset, (w.index.seg p).index.nextId := by
    refine Finset.sum_congr rfl fun p hp => ?_
    rw [hseg, if_neg (ne_of_mem_of_not_mem hp hnew)]
  have hzero : (w'.index.seg w.index.heap.next).index.nextId = 0 := by
    rw [hseg, if_pos rfl]
    rfl
  constructor
  · rw [howners, Finset.sum_insert hnew, hrest, hzero, Nat.zero_add]
    exact h.total
  · intro p
    by_cases hp : p = w.index.heap.next
    · rw [hp, hzero]
      exact Nat.zero_le _
    · rw [hseg, if_neg hp]
      exact h.each p

/-- The segment that stays binds at most the positions of both. -/
theorem joined (h : Bounded k w) (hshape : Shape w) {j a b : Nat}
    (left : w.index.levels.cell w.level j = some a)
    (right : w.index.levels.cell w.level (j + 1) = some b)
    (index : w'.index = w.index.join rt w.level j a b) : Bounded k w' := by
  obtain ⟨-, hne, -, -⟩ := hshape.join_cells rt left right
  have hsum := h.total
  have hseg : ∀ p, w'.index.seg p = _ := fun p => index ▸ w.index.join_seg rt w.level j a b p
  have hb : b ∈ w.index.owners.toFinset :=
    mem_owners_toFinset.mpr (Or.inl (Index.mem_current_of_cell right))
  have ha : a ∈ w.index.owners.toFinset.erase b :=
    Finset.mem_erase.mpr ⟨hne, mem_owners_toFinset.mpr (Or.inl (Index.mem_current_of_cell left))⟩
  have howners : w'.index.owners.toFinset = w.index.owners.toFinset.erase b := by
    ext p
    rw [Finset.mem_erase, List.mem_toFinset, List.mem_toFinset, index,
      hshape.mem_join_owners rt left right, and_comm]
  have hnext : (w'.index.seg a).index.nextId ≤
      (w.index.seg b).index.nextId + (w.index.seg a).index.nextId := by
    rw [hseg, if_pos rfl, FaissIndex.addBatch_nextId, Nat.add_comm]
    exact Nat.add_le_add_right ((hshape.wf b).length_survivors_le rt) _
  have hrest : ∑ p ∈ (w.index.owners.toFinset.erase b).erase a, (w'.index.seg p).index.nextId =
      ∑ p ∈ (w.index.owners.toFinset.erase b).erase a, (w.index.seg p).index.nextId := by
    refine Finset.sum_congr rfl fun p hp => ?_
    rw [hseg, if_neg (Finset.ne_of_mem_erase hp)]
  rw [← Finset.add_sum_erase _ _ hb, ← Finset.add_sum_erase _ _ ha] at hsum
  constructor
  · rw [howners, ← Finset.add_sum_erase _ _ ha, hrest]
    omega
  · intro p
    by_cases hp : p = a
    · rw [hp]
      omega
    · rw [hseg, if_neg hp]
      exact h.each p

/-- A growth by rows binds as many positions more. -/
theorem grow (h : Bounded k w) (hshape : Shape w) {rows : List (ID × Vec)}
    (hgrowth : Growth rt rows w w') : Bounded (k + rows.length) w' := by
  cases hgrowth with
  | appended _ rows => exact h.appended rows
  | quiet heap last _ current => exact h.quiet heap last current
  | sealed heap last _ current => exact h.sealed hshape heap last current
  | joined _ left right index => exact h.joined hshape left right index

end Bounded

end Vecodex
