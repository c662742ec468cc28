import Vecodex.Laws.Callback

/-!
# What the callback tasks still have to deliver

A callback task reads the segments it was handed when it runs, and later merges may have renamed
or absorbed them by then. This module is about an index whose first `n` calls have been delivered.
A segment is `Pending` when a later call hands it over, an id is `Doomed` when a later call erases
it; inside a call on the index, what has not been reported yet counts as well.

For an index that only adds documents, `Growth` says what a step does to the segments, the pending
ones and the doomed ids. `Feed` collects what follows for the calls: a segment that is pending and
no longer in the levels is under a doomed id, and an id that was erased is never carried again.
-/

namespace Vecodex

open Lib

variable {B ID Vec Dist : Type}

namespace Work

/-- A call after the first `n` ones hands the segment over. -/
def Pending (w : Work B ID) (n p : Nat) : Prop :=
  (∃ c ∈ w.index.calls.drop n, p ∈ c.inserted) ∨ p ∈ w.fresh ∨ p ∈ w.inserted

/-- A call after the first `n` ones erases the id. -/
def Doomed (w : Work B ID) (n id : Nat) : Prop :=
  (∃ c ∈ w.index.calls.drop n, id ∈ c.erased) ∨ id ∈ w.erased

/-- A call after the first `n` ones erases the id and hands over the given segments. -/
def Erases (w : Work B ID) (n id : Nat) (survivors : List Nat) : Prop :=
  (∃ c ∈ w.index.calls.drop n, id ∈ c.erased ∧ c.inserted = survivors) ∨
    id ∈ w.erased ∧ w.inserted = survivors

/-- The id is that of a segment, or a call erases it. -/
def Known (w : Work B ID) (id : Nat) : Prop :=
  (∃ p, w.index.heap.Alloc p ∧ w.index.idOf p = id) ∨ w.Doomed 0 id

theorem Pending.mono {w : Work B ID} {m n p : Nat} (h : w.Pending n p) (hle : m ≤ n) :
    w.Pending m p :=
  h.imp_left fun ⟨c, hc, hp⟩ => ⟨c, (List.drop_sublist_drop_left _ hle).subset hc, hp⟩

theorem Doomed.mono {w : Work B ID} {m n id : Nat} (h : w.Doomed n id) (hle : m ≤ n) :
    w.Doomed m id :=
  h.imp_left fun ⟨c, hc, hid⟩ => ⟨c, (List.drop_sublist_drop_left _ hle).subset hc, hid⟩

theorem Erases.doomed {w : Work B ID} {n id : Nat} {survivors : List Nat}
    (h : w.Erases n id survivors) : w.Doomed n id :=
  h.imp (fun ⟨c, hc, hid, _⟩ => ⟨c, hc, hid⟩) And.left

theorem Erases.mono {w : Work B ID} {m n id : Nat} {survivors : List Nat}
    (h : w.Erases n id survivors) (hle : m ≤ n) : w.Erases m id survivors :=
  h.imp_left fun ⟨c, hc, hid⟩ => ⟨c, (List.drop_sublist_drop_left _ hle).subset hc, hid⟩

/-- Behind the last call only what has not been reported is pending. -/
theorem pending_end {w : Work B ID} {n p : Nat} (hn : w.index.calls.length ≤ n) :
    w.Pending n p ↔ p ∈ w.fresh ∨ p ∈ w.inserted := by
  unfold Pending
  rw [List.drop_eq_nil_of_le hn]
  simp

/-- The next call and what comes after it. -/
theorem pending_cons {w : Work B ID} {n p : Nat} {c : Call} (hc : w.index.calls[n]? = some c) :
    w.Pending n p ↔ p ∈ c.inserted ∨ w.Pending (n + 1) p := by
  obtain ⟨hn, hget⟩ := List.getElem?_eq_some_iff.mp hc
  unfold Pending
  rw [List.drop_eq_getElem_cons hn, hget]
  simp [or_assoc]

theorem doomed_cons {w : Work B ID} {n id : Nat} {c : Call} (hc : w.index.calls[n]? = some c) :
    w.Doomed n id ↔ id ∈ c.erased ∨ w.Doomed (n + 1) id := by
  obtain ⟨hn, hget⟩ := List.getElem?_eq_some_iff.mp hc
  unfold Doomed
  rw [List.drop_eq_getElem_cons hn, hget]
  simp [or_assoc]

end Work

/-! ## Steps that add documents -/

/-- The change adds a document. -/
def Change.IsPut : Change B ID Vec → Prop
  | .put _ _ => True
  | .drop _ => False
  | .push _ => False

section Growth

variable [DecidableEq ID]

/-- What a step that adds the given rows can do to the segments and the calls. -/
inductive Growth (rt : Runtime B ID Vec Dist) : List (ID × Vec) → Work B ID → Work B ID → Prop
  | appended (w : Work B ID) (rows : List (ID × Vec)) :
    Growth rt rows w { w with index := w.index.appendLast rt rows }
  | quiet {w w' : Work B ID} (heap : w'.index.heap = w.index.heap)
      (last : w'.index.last = w.index.last) (draws : w.index.draws ≤ w'.index.draws)
      (current : ∀ p, p ∈ w'.index.current ↔ p ∈ w.index.current)
      (fresh : ∀ p ∈ w'.fresh, p ∈ w.fresh)
      (calls : w'.index.calls = w.index.calls ∨ ∃ c, w'.index.calls = w.index.calls ++ [c] ∧
        ∀ id ∈ c.erased, id ∈ w.erased)
      (pending : ∀ n ≤ w.index.calls.length, ∀ p, w'.Pending n p ↔ w.Pending n p)
      (doomed : ∀ n ≤ w.index.calls.length, ∀ id, w'.Doomed n id ↔ w.Doomed n id)
      (erases : ∀ n ≤ w.index.calls.length, ∀ id survivors,
        w'.Erases n id survivors ↔ w.Erases n id survivors) :
    Growth rt [] w w'
  | sealed {w w' : Work B ID}
      (heap : w'.index.heap =
        w.index.heap.alloc (Index.freshSegment rt w.index.config w.index.draws))
      (last : w'.index.last = w.index.heap.next) (draws : w'.index.draws = w.index.draws + 1)
      (current : ∀ p, p ∈ w'.index.current ↔ p ∈ w.index.current ∨ p = w.index.last)
      (fresh : w'.fresh = w.fresh ++ [w.index.last]) (calls : w'.index.calls = w.index.calls)
      (inserted : w'.inserted = w.inserted) (erased : w'.erased = w.erased) :
    Growth rt [] w w'
  | joined {w w' : Work B ID} {j a b : Nat} (reported : w.fresh = [])
      (left : w.index.levels.cell w.level j = some a)
      (right : w.index.levels.cell w.level (j + 1) = some b)
      (index : w'.index = w.index.join rt w.level j a b) (fresh : w'.fresh = [])
      (inserted : w'.inserted = w.inserted ++ [a])
      (erased : w'.erased = w.erased ++ [w.index.idOf b, w.index.idOf a]) :
    Growth rt [] w w'

/-- A report moves what is pending from the list of sealed segments into a call. -/
theorem growth_report (rt : Runtime B ID Vec Dist) {w : Work B ID}
    (hcallback : w.index.callback = true) :
    Growth rt [] w { w with index := w.index.notify [] w.fresh, fresh := [] } := by
  have hnotify : w.index.notify [] w.fresh = { w.index with
      calls := w.index.calls ++ [⟨[], w.fresh, w.fresh.map w.index.idOf⟩] } := if_pos hcallback
  rw [hnotify]
  refine .quiet rfl rfl (Nat.le_refl _) (fun _ => Iff.rfl) nofun (Or.inr ⟨_, rfl, nofun⟩) ?_ ?_ ?_
  · intro n hn p
    unfold Work.Pending
    dsimp only
    rw [List.drop_append_of_le_length hn]
    simp [or_and_right, exists_or, or_assoc]
  · intro n hn id
    unfold Work.Doomed
    dsimp only
    rw [List.drop_append_of_le_length hn]
    simp [or_and_right, exists_or]
  · intro n hn id survivors
    unfold Work.Erases
    dsimp only
    rw [List.drop_append_of_le_length hn]
    simp [or_and_right, exists_or]

/-- The end of a pass moves what it joined into a call. -/
theorem growth_finish (rt : Runtime B ID Vec Dist) {w : Work B ID} (h : Observed w) :
    Growth rt [] w { w with
      index := w.index.finishPass w.erased w.inserted
      level := w.level + 1
      erased := []
      inserted := [] } := by
  have hcalls := finishPass_calls h.callback w.erased w.inserted
  obtain ⟨segments, trace, calls, heq, -, -⟩ := w.index.finishPass_eq w.erased w.inserted
  rw [heq] at hcalls ⊢
  dsimp only at hcalls
  by_cases hidle : w.erased = [] ∨ w.inserted = []
  · obtain ⟨herased, hinserted⟩ := h.idle_of_nil hidle
    rw [if_pos hidle] at hcalls
    refine .quiet rfl rfl (Nat.le_refl _) (fun _ => Iff.rfl) (fun _ hp => hp) (Or.inl hcalls)
      ?_ ?_ ?_
    · intro n _ p
      unfold Work.Pending
      rw [hinserted, hcalls]
    · intro n _ id
      unfold Work.Doomed
      rw [herased, hcalls]
    · intro n _ id survivors
      unfold Work.Erases
      rw [herased, hinserted, hcalls]
  · rw [if_neg hidle] at hcalls
    refine .quiet rfl rfl (Nat.le_refl _) (fun _ => Iff.rfl) (fun _ hp => hp)
      (Or.inr ⟨_, hcalls, fun id hid => hid⟩) ?_ ?_ ?_
    · intro n hn p
      unfold Work.Pending
      dsimp only
      rw [hcalls, List.drop_append_of_le_length hn]
      simp [or_and_right, exists_or, or_assoc, or_comm]
    · intro n hn id
      unfold Work.Doomed
      dsimp only
      rw [hcalls, List.drop_append_of_le_length hn]
      simp [or_and_right, exists_or]
    · intro n hn id survivors
      unfold Work.Erases
      dsimp only
      rw [hcalls, List.drop_append_of_le_length hn]
      simp [or_and_right, exists_or]

/-- A step that only adds documents is a growth by them. -/
theorem Step.growth {rt : Runtime B ID Vec Dist} {changes : List (Change B ID Vec)}
    {w w' : Work B ID} (hstep : Step rt changes w w') (h : Observed w)
    (hput : ∀ c ∈ changes, c.IsPut) :
    ∃ rows : List (ID × Vec), rows.length = changes.length ∧ Growth rt rows w w' := by
  cases hstep with
  | append _ rows => exact ⟨rows, (List.length_map _).symm, .appended w rows⟩
  | @sealLast _ idx idle full stored =>
    refine ⟨[], rfl, ?_⟩
    have hcurrent : ∀ p, p ∈ (idx.openNext rt).current ↔ p ∈ w.index.current ∨ p = w.index.last :=
      fun p => Index.mem_openNext_current stored
    obtain ⟨levels, -, rfl⟩ := Index.storageAdd_eq_ok stored
    exact .sealed rfl rfl rfl hcurrent rfl rfl rfl rfl
  | report => exact ⟨[], rfl, growth_report rt h.callback⟩
  | merge hmerge =>
    refine ⟨[], rfl, ?_⟩
    cases hmerge with
    | join j reported left right kinds => exact .joined reported left right rfl reported rfl rfl
    | finish => exact growth_finish rt h
    | compact idle =>
      refine .quiet rfl rfl (Nat.le_refl _) (fun p => ?_) (fun _ hp => hp) (Or.inl rfl)
        (fun _ _ _ => Iff.rfl) (fun _ _ _ => Iff.rfl) (fun _ _ _ _ => Iff.rfl)
      rw [show w.index.compactLevels.current = w.index.current from w.index.current_compactLevels]
  | elsewhere _ n =>
    exact ⟨[], rfl, .quiet rfl rfl (Nat.le_add_right _ n) (fun _ => Iff.rfl) (fun _ hp => hp)
      (Or.inl rfl) (fun _ _ _ => Iff.rfl) (fun _ _ _ => Iff.rfl) (fun _ _ _ _ => Iff.rfl)⟩
  | erase _ ids => exact absurd (hput _ List.mem_cons_self) id
  | push _ wf idle stored => exact absurd (hput _ List.mem_cons_self) id

end Growth

namespace Growth

variable {rt : Runtime B ID Vec Dist} {rows : List (ID × Vec)} {w w' : Work B ID}

theorem quiet_seg (heap : w'.index.heap = w.index.heap) (p : Nat) :
    w'.index.seg p = w.index.seg p := by
  unfold Index.seg
  rw [heap]

/-- The segments of a heap that has one more. -/
theorem sealed_seg (heap : w'.index.heap =
      w.index.heap.alloc (Index.freshSegment rt w.index.config w.index.draws)) (p : Nat) :
    w'.index.seg p = if p = w.index.heap.next then
      Index.freshSegment rt w.index.config w.index.draws else w.index.seg p := by
  unfold Index.seg
  rw [heap]
  exact w.index.alloc_seg _ p

theorem sealed_idOf (heap : w'.index.heap =
      w.index.heap.alloc (Index.freshSegment rt w.index.config w.index.draws)) (p : Nat) :
    w'.index.idOf p =
      if p = w.index.heap.next then rt.rand w.index.draws else w.index.idOf p := by
  unfold Index.idOf
  rw [sealed_seg heap]
  split <;> rfl

/-- A sealed segment is to be reported. -/
theorem sealed_pending (fresh : w'.fresh = w.fresh ++ [w.index.last])
    (calls : w'.index.calls = w.index.calls) (inserted : w'.inserted = w.inserted) (n p : Nat) :
    w'.Pending n p ↔ w.Pending n p ∨ p = w.index.last := by
  unfold Work.Pending
  rw [calls, fresh, inserted, List.mem_append, List.mem_singleton, or_right_comm, ← or_assoc]

theorem sealed_doomed (calls : w'.index.calls = w.index.calls) (erased : w'.erased = w.erased)
    (n id : Nat) : w'.Doomed n id ↔ w.Doomed n id := by
  unfold Work.Doomed
  rw [calls, erased]

variable [DecidableEq ID]

section Joined

variable {j a b : Nat}

/-- The segment that took the rows of its neighbour is to be reported. -/
theorem joined_pending (reported : w.fresh = [])
    (index : w'.index = w.index.join rt w.level j a b) (fresh : w'.fresh = [])
    (inserted : w'.inserted = w.inserted ++ [a]) (n p : Nat) :
    w'.Pending n p ↔ w.Pending n p ∨ p = a := by
  unfold Work.Pending
  rw [index, fresh, inserted, reported, List.mem_append, List.mem_singleton, or_assoc, or_assoc]
  rfl

/-- The ids of both segments are to be erased. -/
theorem joined_doomed (index : w'.index = w.index.join rt w.level j a b)
    (erased : w'.erased = w.erased ++ [w.index.idOf b, w.index.idOf a]) (n id : Nat) :
    w'.Doomed n id ↔ w.Doomed n id ∨ id = w.index.idOf b ∨ id = w.index.idOf a := by
  unfold Work.Doomed
  rw [index, erased, List.mem_append, List.mem_cons, List.mem_singleton, or_assoc]
  rfl

end Joined

theorem draws_le (h : Growth rt rows w w') : w.index.draws ≤ w'.index.draws := by
  cases h with
  | appended => exact Nat.le_refl _
  | quiet _ _ draws => exact draws
  | sealed _ _ draws => exact draws ▸ Nat.le_succ _
  | joined _ _ _ index => exact index ▸ Nat.le_succ _

theorem calls_le (h : Growth rt rows w w') : w.index.calls.length ≤ w'.index.calls.length := by
  cases h with
  | appended => exact Nat.le_refl _
  | quiet _ _ _ _ _ calls =>
    rcases calls with hcalls | ⟨c, hcalls, -⟩
    · rw [hcalls]
    · rw [hcalls, List.length_append]
      exact Nat.le_add_right _ _
  | sealed _ _ _ _ _ calls => rw [calls]
  | joined _ _ _ index => exact index ▸ Nat.le_refl _

/-- The segments stay where they are. -/
theorem alloc_mono (h : Growth rt rows w w') {p : Nat} (hp : w.index.heap.Alloc p) :
    w'.index.heap.Alloc p := by
  cases h with
  | appended => exact hp
  | quiet heap => exact heap ▸ hp
  | sealed heap => exact heap ▸ Nat.lt_succ_of_lt hp
  | joined _ _ _ index => exact index ▸ hp

/-- What is called under an id, or erased, was so before, or the id is the value just drawn. -/
theorem known_cases (h : Growth rt rows w w') (hshape : Shape w) {id : Nat}
    (hid : w'.Known id) :
    w.Known id ∨ w.index.draws < w'.index.draws ∧ id = rt.rand w.index.draws := by
  cases h with
  | appended _ rows =>
    left
    rcases hid with ⟨p, hp, rfl⟩ | hdoomed
    · exact Or.inl ⟨p, hp, (w.index.appendLast_idOf rt rows p).symm⟩
    · exact Or.inr hdoomed
  | quiet heap _ _ _ _ _ _ doomed =>
    left
    rcases hid with ⟨p, hp, rfl⟩ | hdoomed
    · exact Or.inl ⟨p, heap ▸ hp, congrArg Segment.segId (quiet_seg heap p).symm⟩
    · exact Or.inr ((doomed 0 (Nat.zero_le _) id).mp hdoomed)
  | sealed heap _ draws _ _ calls _ erased =>
    rcases hid with ⟨p, hp, rfl⟩ | hdoomed
    · rw [sealed_idOf heap]
      rw [heap] at hp
      rcases Heap.alloc_cases hp with ⟨hp, -⟩ | ⟨rfl, -⟩
      · rw [if_neg (Nat.ne_of_lt hp)]
        exact Or.inl (Or.inl ⟨p, hp, rfl⟩)
      · rw [if_pos rfl]
        exact Or.inr ⟨draws ▸ Nat.lt_succ_self _, rfl⟩
    · exact Or.inl (Or.inr ((sealed_doomed calls erased 0 id).mp hdoomed))
  | @joined _ _ j a b _ left right index _ _ erased =>
    have halloc : ∀ {p}, p ∈ w.index.current → w.Known (w.index.idOf p) := fun hp =>
      Or.inl ⟨_, hshape.current_alloc _ hp, rfl⟩
    rcases hid with ⟨p, hp, rfl⟩ | hdoomed
    · rw [index] at hp ⊢
      rw [w.index.join_idOf rt w.level j a b]
      split
      · exact Or.inr ⟨Nat.lt_succ_self _, rfl⟩
      · exact Or.inl (Or.inl ⟨p, hp, rfl⟩)
    · left
      rcases (joined_doomed index erased 0 id).mp hdoomed with hdoomed | rfl | rfl
      · exact Or.inr hdoomed
      · exact halloc (Index.mem_current_of_cell right)
      · exact halloc (Index.mem_current_of_cell left)

end Growth

/-! ## The calls of an index that grows -/

/-- What holds of the segments and the ids in the calls. -/
structure Feed (rt : Runtime B ID Vec Dist) (w : Work B ID) : Prop where
  inj : ∀ p q, w.index.heap.Alloc p → w.index.heap.Alloc q → w.index.idOf p = w.index.idOf q →
    p = q
  known_drawn : ∀ id, w.Known id → ∃ m < w.index.draws, rt.rand m = id
  fresh_current : ∀ p ∈ w.fresh, p ∈ w.index.current
  /-- No call hands over the open segment. -/
  pending_sealed : ∀ p, w.Pending 0 p → w.index.heap.Alloc p ∧ p ≠ w.index.last
  /-- A pending segment that left the levels is under an id that will be erased. -/
  absorbed : ∀ n ≤ w.index.calls.length, ∀ p, w.Pending n p →
    p ∈ w.index.current ∨ w.Doomed n (w.index.idOf p)
  /-- A call erases no id under which it, or a later call, hands a segment over. -/
  apart : ∀ n c, w.index.calls[n]? = some c → ∀ id ∈ c.erased, ∀ p, w.Pending n p →
    w.index.idOf p ≠ id
  /-- The segments of the levels and the open one carry no erased id. -/
  retired : ∀ id, w.Doomed 0 id → ∀ p, p ∈ w.index.current ∨ p = w.index.last →
    w.index.idOf p ≠ id

namespace Feed

variable {rt : Runtime B ID Vec Dist} {w w' : Work B ID}

/-- The one id of a new index. -/
theorem known_create {rt : Runtime B ID Vec Dist} {config : IndexConfig} {draws id : Nat}
    (h : (Index.create rt config true draws : Index B ID).rest.Known id) : rt.rand draws = id := by
  rcases h with ⟨p, -, rfl⟩ | ⟨c, hc, -⟩ | h
  · show rt.rand draws = ((Index.create rt config true draws : Index B ID).seg p).segId
    rw [Index.create_seg]
    rfl
  · cases hc
  · cases h

theorem create (rt : Runtime B ID Vec Dist) (config : IndexConfig) (draws : Nat) :
    Feed rt (Index.create rt config true draws : Index B ID).rest where
  inj := (Ids.create rt config true draws).inj
  known_drawn id h := ⟨draws, Nat.lt_succ_self _, known_create h⟩
  fresh_current p hp := by cases hp
  pending_sealed p h := by
    rcases h with ⟨c, hc, -⟩ | h | h
    · cases hc
    · cases h
    · cases h
  absorbed n hn p h := by
    rw [Work.pending_end (Nat.zero_le n)] at h
    rcases h with h | h <;> cases h
  apart n c hc := by cases hc
  retired id h := by
    rcases h with ⟨c, hc, -⟩ | h
    · cases hc
    · cases h

/-- Others may draw in between. -/
theorem drawn {idx : Index B ID} (h : Feed rt idx.rest) {draws : Nat} (hle : idx.draws ≤ draws) :
    Feed rt ({ idx with draws := draws } : Index B ID).rest where
  inj := h.inj
  known_drawn id hid := by
    obtain ⟨m, hm, hrand⟩ := h.known_drawn id hid
    exact ⟨m, Nat.lt_of_lt_of_le hm hle, hrand⟩
  fresh_current := h.fresh_current
  pending_sealed := h.pending_sealed
  absorbed := h.absorbed
  apart := h.apart
  retired := h.retired

/-- The value drawn next is no known id. -/
theorem rand_ne (h : Feed rt w) {draws : Nat} (hd : rt.Distinct draws)
    (hlt : w.index.draws < draws) {id : Nat} (hid : w.Known id) : rt.rand w.index.draws ≠ id := by
  obtain ⟨m, hm, rfl⟩ := h.known_drawn id hid
  exact fun heq => Nat.ne_of_gt hm (hd _ hlt m (by omega) heq)

/-- What a call hands over is a segment other than the open one. -/
theorem inserted_sealed (h : Feed rt w) {c : Call} (hc : c ∈ w.index.calls) {p : Nat}
    (hp : p ∈ c.inserted) : w.index.heap.Alloc p ∧ p ≠ w.index.last :=
  h.pending_sealed p (Or.inl ⟨c, hc, hp⟩)

/-- A call erases only what is doomed. -/
theorem doomed_of_call {n : Nat} {c : Call} (hc : w.index.calls[n]? = some c) {id : Nat}
    (hid : id ∈ c.erased) : w.Doomed 0 id :=
  Or.inl ⟨c, List.mem_of_getElem? hc, hid⟩

variable [DecidableEq ID]

/-- A growth draws the ids it brings up. -/
theorem known_drawn_grow (h : Feed rt w) (hshape : Shape w) {rows : List (ID × Vec)}
    (hgrowth : Growth rt rows w w') {id : Nat} (hid : w'.Known id) :
    ∃ m < w'.index.draws, rt.rand m = id := by
  rcases hgrowth.known_cases hshape hid with hid | ⟨hlt, rfl⟩
  · obtain ⟨m, hm, hrand⟩ := h.known_drawn id hid
    exact ⟨m, Nat.lt_of_lt_of_le hm hgrowth.draws_le, hrand⟩
  · exact ⟨_, hlt, rfl⟩

theorem appended (h : Feed rt w) (rows : List (ID × Vec))
    (hdrawn : ∀ {id}, ({ w with index := w.index.appendLast rt rows } : Work B ID).Known id →
      ∃ m < w.index.draws, rt.rand m = id) :
    Feed rt { w with index := w.index.appendLast rt rows } := by
  have hid : ∀ p, (w.index.appendLast rt rows).idOf p = w.index.idOf p :=
    w.index.appendLast_idOf rt rows
  constructor
  · intro p q hp hq heq
    exact h.inj p q hp hq ((hid p).symm.trans (heq.trans (hid q)))
  · exact fun id => hdrawn
  · exact h.fresh_current
  · exact h.pending_sealed
  · intro n hn p hp
    show p ∈ w.index.current ∨ w.Doomed n ((w.index.appendLast rt rows).idOf p)
    rw [hid]
    exact h.absorbed n hn p hp
  · intro n c hc id hmem p hp
    show (w.index.appendLast rt rows).idOf p ≠ id
    rw [hid]
    exact h.apart n c hc id hmem p hp
  · intro id hdoomed p hp
    show (w.index.appendLast rt rows).idOf p ≠ id
    rw [hid]
    exact h.retired id hdoomed p hp

theorem quiet (h : Feed rt w) (hshape : Shape w) (hshape' : Shape w')
    (hdrawn : ∀ {id}, w'.Known id → ∃ m < w'.index.draws, rt.rand m = id)
    (heap : w'.index.heap = w.index.heap) (last : w'.index.last = w.index.last)
    (current : ∀ p, p ∈ w'.index.current ↔ p ∈ w.index.current)
    (fresh : ∀ p ∈ w'.fresh, p ∈ w.fresh)
    (calls : w'.index.calls = w.index.calls ∨ ∃ c, w'.index.calls = w.index.calls ++ [c] ∧
      ∀ id ∈ c.erased, id ∈ w.erased)
    (pending : ∀ n ≤ w.index.calls.length, ∀ p, w'.Pending n p ↔ w.Pending n p)
    (doomed : ∀ n ≤ w.index.calls.length, ∀ id, w'.Doomed n id ↔ w.Doomed n id) :
    Feed rt w' := by
  have hid : ∀ p, w'.index.idOf p = w.index.idOf p := fun p =>
    congrArg Segment.segId (Growth.quiet_seg heap p)
  have hcurrent : ∀ p, p ∈ w.fresh ∨ p ∈ w.inserted → p ∈ w.index.current := by
    rintro p (hp | hp)
    · exact h.fresh_current p hp
    · exact hshape.inserted_current p hp
  have hfresh : ∀ p ∈ w'.fresh, p ∈ w'.index.current := fun p hp =>
    (current p).mpr (h.fresh_current p (fresh p hp))
  constructor
  · intro p q hp hq heq
    rw [heap] at hp hq
    rw [hid, hid] at heq
    exact h.inj p q hp hq heq
  · exact fun id => hdrawn
  · exact hfresh
  · intro p hp
    rw [heap, last]
    exact h.pending_sealed p ((pending 0 (Nat.zero_le _) p).mp hp)
  · intro n hn p hp
    by_cases hle : n ≤ w.index.calls.length
    · rw [current, hid, doomed n hle]
      exact h.absorbed n hle p ((pending n hle p).mp hp)
    · -- behind the call that was just made
      left
      have hend : w'.index.calls.length ≤ n := by
        rcases calls with hcalls | ⟨c, hcalls, -⟩
        · rw [hcalls]
          omega
        · rw [hcalls, List.length_append, List.length_singleton]
          omega
      rcases (Work.pending_end hend).mp hp with hp | hp
      · exact hfresh p hp
      · exact hshape'.inserted_current p hp
  · intro n c hc id hmem p hp
    rw [hid]
    rcases calls with hcalls | ⟨new, hcalls, herased⟩
    · rw [hcalls] at hc
      obtain ⟨hn, -⟩ := List.getElem?_eq_some_iff.mp hc
      exact h.apart n c hc id hmem p ((pending n hn.le p).mp hp)
    · rw [hcalls] at hc
      by_cases hn : n < w.index.calls.length
      · rw [List.getElem?_append_left hn] at hc
        exact h.apart n c hc id hmem p ((pending n hn.le p).mp hp)
      · -- the call that was just made: what it hands over is in the levels
        obtain ⟨hlt, -⟩ := List.getElem?_eq_some_iff.mp hc
        rw [List.length_append, List.length_singleton] at hlt
        obtain rfl : n = w.index.calls.length := by omega
        rw [List.getElem?_concat_length] at hc
        obtain rfl := Option.some.inj hc
        have hpend := (Work.pending_end (Nat.le_refl _)).mp ((pending _ (Nat.le_refl _) p).mp hp)
        exact h.retired id (Or.inr (herased id hmem)) p (Or.inl (hcurrent p hpend))
  · intro id hdoomed p hp
    rw [current, last] at hp
    rw [hid]
    exact h.retired id ((doomed 0 (Nat.zero_le _) id).mp hdoomed) p hp

theorem sealed (h : Feed rt w) (hshape : Shape w) (hd : rt.Distinct w'.index.draws)
    (hdrawn : ∀ {id}, w'.Known id → ∃ m < w'.index.draws, rt.rand m = id)
    (heap : w'.index.heap =
      w.index.heap.alloc (Index.freshSegment rt w.index.config w.index.draws))
    (last : w'.index.last = w.index.heap.next) (draws : w'.index.draws = w.index.draws + 1)
    (current : ∀ p, p ∈ w'.index.current ↔ p ∈ w.index.current ∨ p = w.index.last)
    (fresh : w'.fresh = w.fresh ++ [w.index.last]) (calls : w'.index.calls = w.index.calls)
    (inserted : w'.inserted = w.inserted) (erased : w'.erased = w.erased) : Feed rt w' := by
  have hid := Growth.sealed_idOf heap
  have hold : ∀ p, w.index.heap.Alloc p → w'.index.idOf p = w.index.idOf p := by
    intro p hp
    rw [hid, if_neg (Nat.ne_of_lt hp)]
  have hpending := Growth.sealed_pending fresh calls inserted
  have hdoomed := Growth.sealed_doomed calls erased
  have hnew : ∀ id, w.Known id → rt.rand w.index.draws ≠ id := fun id hknown =>
    h.rand_ne hd (draws ▸ Nat.lt_succ_self _) hknown
  constructor
  · refine Index.idOf_inj_of_renamed h.inj (fun p hp => hnew _ (Or.inl ⟨p, hp, rfl⟩)) hid
      fun p hp => ?_
    rw [heap] at hp
    exact (Heap.alloc_cases hp).imp And.left And.left
  · exact fun id => hdrawn
  · intro p hp
    rw [fresh, List.mem_append, List.mem_singleton] at hp
    exact (current p).mpr (hp.imp_left (h.fresh_current p))
  · intro p hp
    have halloc : w.index.heap.Alloc p := by
      rcases (hpending 0 p).mp hp with hp | rfl
      · exact (h.pending_sealed p hp).1
      · exact hshape.last_alloc
    rw [heap, last]
    exact ⟨Nat.lt_succ_of_lt halloc, Nat.ne_of_lt halloc⟩
  · intro n hn p hp
    rw [calls] at hn
    rw [current, hdoomed]
    rcases (hpending n p).mp hp with hp | rfl
    · rw [hold p (h.pending_sealed p (hp.mono (Nat.zero_le n))).1]
      exact (h.absorbed n hn p hp).imp_left Or.inl
    · exact Or.inl (Or.inr rfl)
  · intro n c hc id hmem p hp
    rw [calls] at hc
    rcases (hpending n p).mp hp with hp | rfl
    · rw [hold p (h.pending_sealed p (hp.mono (Nat.zero_le n))).1]
      exact h.apart n c hc id hmem p hp
    · rw [hold _ hshape.last_alloc]
      exact h.retired id (doomed_of_call hc hmem) _ (Or.inr rfl)
  · intro id hdoom p hp
    rw [hdoomed] at hdoom
    rw [current, last] at hp
    rcases hp with hp | rfl
    · rw [hold p (hshape.owner_alloc hp)]
      exact h.retired id hdoom p hp
    · rw [hid, if_pos rfl]
      exact hnew id (Or.inr hdoom)

theorem joined (h : Feed rt w) (hshape : Shape w) (hd : rt.Distinct w'.index.draws)
    (hdrawn : ∀ {id}, w'.Known id → ∃ m < w'.index.draws, rt.rand m = id) {j a b : Nat}
    (left : w.index.levels.cell w.level j = some a)
    (right : w.index.levels.cell w.level (j + 1) = some b)
    (index : w'.index = w.index.join rt w.level j a b) (reported : w.fresh = [])
    (fresh : w'.fresh = []) (inserted : w'.inserted = w.inserted ++ [a])
    (erased : w'.erased = w.erased ++ [w.index.idOf b, w.index.idOf a]) : Feed rt w' := by
  obtain ⟨-, hne, -, -⟩ := hshape.join_cells rt left right
  have hac : a ∈ w.index.current := Index.mem_current_of_cell left
  have hbc : b ∈ w.index.current := Index.mem_current_of_cell right
  have hid : ∀ p, w'.index.idOf p = if p = a then rt.rand w.index.draws else w.index.idOf p := by
    rw [index]
    exact w.index.join_idOf rt w.level j a b
  have hcurrent : ∀ p, p ∈ w'.index.current ↔ p ∈ w.index.current ∧ p ≠ b := fun _ =>
    index ▸ hshape.mem_join_current rt left right
  have hcalls : w'.index.calls = w.index.calls := by rw [index]; rfl
  have hpending := Growth.joined_pending reported index fresh inserted
  have hdoomed := Growth.joined_doomed index erased
  have hnew : ∀ id, w.Known id → rt.rand w.index.draws ≠ id := fun id hknown =>
    h.rand_ne hd (index ▸ Nat.lt_succ_self _) hknown
  have hknown : ∀ id, w'.Doomed 0 id → w.Known id := by
    intro id hdoom
    rcases (hdoomed 0 id).mp hdoom with hdoom | rfl | rfl
    · exact Or.inr hdoom
    · exact Or.inl ⟨b, hshape.current_alloc b hbc, rfl⟩
    · exact Or.inl ⟨a, hshape.current_alloc a hac, rfl⟩
  have hheap : ∀ p, w'.index.heap.Alloc p ↔ w.index.heap.Alloc p := by
    rw [index]
    exact fun p => Iff.rfl
  have hlast : w'.index.last = w.index.last := by rw [index]; rfl
  constructor
  · exact Index.idOf_inj_of_renamed h.inj (fun p hp => hnew _ (Or.inl ⟨p, hp, rfl⟩)) hid
      fun p hp => Or.inl ((hheap p).mp hp)
  · exact fun id => hdrawn
  · intro p hp
    rw [fresh] at hp
    cases hp
  · intro p hp
    rw [hheap, hlast]
    rcases (hpending 0 p).mp hp with hp | rfl
    · exact h.pending_sealed p hp
    · exact ⟨hshape.current_alloc p hac, ne_of_mem_of_not_mem hac hshape.last_current⟩
  · intro n hn p hp
    rw [hcalls] at hn
    by_cases hpa : p = a
    · exact Or.inl ((hcurrent p).mpr ⟨hpa ▸ hac, hpa ▸ hne⟩)
    · rw [hcurrent, hdoomed, hid, if_neg hpa]
      rcases h.absorbed n hn p (((hpending n p).mp hp).resolve_right hpa) with hp | hdoom
      · by_cases hpb : p = b
        · exact Or.inr (Or.inr (Or.inl (hpb ▸ rfl)))
        · exact Or.inl ⟨hp, hpb⟩
      · exact Or.inr (Or.inl hdoom)
  · intro n c hc id hmem p hp
    rw [hcalls] at hc
    rw [hid]
    split
    · exact hnew id (Or.inr (doomed_of_call hc hmem))
    · next hpa => exact h.apart n c hc id hmem p (((hpending n p).mp hp).resolve_right hpa)
  · intro id hdoom p hp
    rw [hcurrent, hlast] at hp
    rw [hid]
    split
    · exact hnew id (hknown id hdoom)
    · next hpa =>
      have howner : p ∈ w.index.current ∨ p = w.index.last := hp.imp_left And.left
      have hinj := fun q hq => h.inj p q (hshape.owner_alloc howner) (hshape.current_alloc q hq)
      rcases (hdoomed 0 id).mp hdoom with hdoom | rfl | rfl
      · exact h.retired id hdoom p howner
      · have hpb : p ≠ b := by
          rcases hp with hp | rfl
          · exact hp.2
          · exact fun heq => hshape.last_current (heq ▸ hbc)
        exact fun heq => hpb (hinj b hbc heq)
      · exact fun heq => hpa (hinj a hac heq)

/-- Every growth keeps what holds of the calls. -/
theorem grow (h : Feed rt w) (hshape : Shape w) (hshape' : Shape w')
    (hd : rt.Distinct w'.index.draws) {rows : List (ID × Vec)} (hgrowth : Growth rt rows w w') :
    Feed rt w' := by
  have hdrawn : ∀ {id}, w'.Known id → ∃ m < w'.index.draws, rt.rand m = id :=
    h.known_drawn_grow hshape hgrowth
  cases hgrowth with
  | appended _ rows => exact h.appended rows hdrawn
  | quiet heap last draws current fresh calls pending doomed erases =>
    exact h.quiet hshape hshape' hdrawn heap last current fresh calls pending doomed
  | sealed heap last draws current fresh calls inserted erased =>
    exact h.sealed hshape hd hdrawn heap last draws current fresh calls inserted erased
  | joined reported left right index fresh inserted erased =>
    exact h.joined hshape hd hdrawn left right index reported fresh inserted erased

/-- The induction over a run that only adds documents: what holds of the calls is kept, and so is
what every growth keeps. `k` counts the rows. -/
theorem invariant {changes : List (Change B ID Vec)} (hruns : Runs (Step rt) changes w w')
    (hput : ∀ c ∈ changes, c.IsPut) (hd : rt.Distinct w'.index.draws) (hshape : Shape w)
    (hobs : Observed w) (h : Feed rt w) {P : Nat → Work B ID → Prop}
    (hgrow : ∀ k (rows : List (ID × Vec)) u u', rt.Distinct u'.index.draws → Shape u → Shape u' →
      Feed rt u → Feed rt u' → Growth rt rows u u' → P k u → P (k + rows.length) u')
    (hP : P 0 w) : Shape w' ∧ Observed w' ∧ Feed rt w' ∧ P changes.length w' := by
  induction hruns with
  | nil => exact ⟨hshape, hobs, h, hP⟩
  | @snoc ks ls s u u' hruns hstep ih =>
    obtain ⟨hshape, hobs, h, hP⟩ := ih (fun c hc => hput c (List.mem_append_left _ hc))
      (hd.mono hstep.draws_le) hshape hobs h hP
    obtain ⟨rows, hlen, hgrowth⟩ :=
      hstep.growth hobs fun c hc => hput c (List.mem_append_right _ hc)
    have hshape' := hshape.step hstep
    have h' := h.grow hshape hshape' hd hgrowth
    rw [List.length_append, ← hlen]
    exact ⟨hshape', hobs.step hshape hstep, h',
      hgrow _ rows u u' hd hshape hshape' h h' hgrowth hP⟩

/-- The ids that come up in a run are values drawn in it. -/
theorem known_of_runs {changes : List (Change B ID Vec)} (hruns : Runs (Step rt) changes w w')
    (hput : ∀ c ∈ changes, c.IsPut) (hd : rt.Distinct w'.index.draws) (hshape : Shape w)
    (hobs : Observed w) (h : Feed rt w) {id : Nat} (hid : w'.Known id) :
    w.Known id ∨ ∃ m, w.index.draws ≤ m ∧ m < w'.index.draws ∧ rt.rand m = id := by
  have hall := (h.invariant hruns hput hd hshape hobs
    (P := fun _ u => w.index.draws ≤ u.index.draws ∧
      ∀ id, u.Known id → w.Known id ∨ ∃ m, w.index.draws ≤ m ∧ m < u.index.draws ∧ rt.rand m = id)
    ?_ ⟨Nat.le_refl _, fun id hid => Or.inl hid⟩).2.2.2
  · exact hall.2 id hid
  · rintro _ rows u u' - hshape - - - hgrowth ⟨hle, hknown⟩
    refine ⟨hle.trans hgrowth.draws_le, fun id hid => ?_⟩
    rcases hgrowth.known_cases hshape hid with hid | ⟨hlt, rfl⟩
    · rcases hknown id hid with hold | ⟨m, hge, hlt, hrand⟩
      · exact Or.inl hold
      · exact Or.inr ⟨m, hge, hlt.trans_le hgrowth.draws_le, hrand⟩
    · exact Or.inr ⟨_, hle, hlt, rfl⟩

end Feed

end Vecodex
