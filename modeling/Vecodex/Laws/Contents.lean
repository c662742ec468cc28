import Vecodex.Laws.Base

/-!
# The rows a wrapper holds

Over a base index that stores what it is given, a wrapper holds rows: `Holds x v` says that some
live position has the id `x` and the vector `v`. Adding joins rows, erasing removes those of the
erased ids as far as they are within its reach, and the rows a merge copies are the held ones.
-/

namespace Vecodex

open Lib

variable {B ID Vec Dist : Type} [DecidableEq ID]

namespace FaissIndex

variable {rt : Runtime B ID Vec Dist} (base : StoringBase rt.faiss)

/-- The base index holds one vector for every bound position. -/
def Aligned (f : FaissIndex B ID) : Prop := (base.stored f.index).length = f.nextId

/-- Position `p` is live, with id `x` and vector `v`. -/
def LiveRow (f : FaissIndex B ID) (p : Nat) (x : ID) (v : Vec) : Prop :=
  f.LiveAt p x ∧ (base.stored f.index)[p]? = some v

/-- Some live position has the id `x` and the vector `v`. -/
def Holds (f : FaissIndex B ID) (x : ID) (v : Vec) : Prop := ∃ p, f.LiveRow base p x v

theorem LiveAt.exists_row {f : FaissIndex B ID} (hf : f.Wf) (ha : f.Aligned base) {p : Nat}
    {x : ID} (h : f.LiveAt p x) : ∃ v, f.LiveRow base p x v := by
  have hlt : p < (base.stored f.index).length := by
    rw [ha]
    exact h.lt hf
  exact ⟨_, h, List.getElem?_eq_getElem hlt⟩

theorem LiveId.exists_holds {f : FaissIndex B ID} (hf : f.Wf) (ha : f.Aligned base) {x : ID}
    (h : f.LiveId x) : ∃ v, f.Holds base x v := by
  obtain ⟨p, hp⟩ := h
  obtain ⟨v, hv⟩ := LiveAt.exists_row base hf ha hp
  exact ⟨v, p, hv⟩

omit [DecidableEq ID] in
theorem aligned_create (kind : BaseKind) : (create rt kind : FaissIndex B ID).Aligned base := by
  show (base.stored rt.faiss.empty).length = 0
  rw [base.stored_empty]
  rfl

theorem Aligned.addBatch {f : FaissIndex B ID} (ha : f.Aligned base) (batch : List (ID × Vec)) :
    (f.addBatch rt batch).Aligned base := by
  unfold Aligned at *
  rw [addBatch_index, base.stored_add, List.length_append, List.length_map, ha, addBatch_nextId]

theorem Aligned.eraseBatch {f : FaissIndex B ID} (ha : f.Aligned base) (ids : List ID) :
    (f.eraseBatch ids).Aligned base := by
  unfold Aligned at *
  rw [eraseBatch_index, eraseBatch_nextId, ha]

omit [DecidableEq ID] in
theorem not_holds_create (kind : BaseKind) (x : ID) (v : Vec) :
    ¬ (create rt kind : FaissIndex B ID).Holds base x v := by
  rintro ⟨p, hp, -⟩
  exact not_liveAt_create rt kind p x hp

/-- A batch adds its rows to the held ones. -/
theorem addBatch_holds {f : FaissIndex B ID} (hf : f.Wf) (ha : f.Aligned base)
    (batch : List (ID × Vec)) (x : ID) (v : Vec) :
    (f.addBatch rt batch).Holds base x v ↔ f.Holds base x v ∨ (x, v) ∈ batch := by
  have hget : ∀ p, (base.stored (f.addBatch rt batch).index)[p]? =
      if p < f.nextId then (base.stored f.index)[p]?
      else (batch[p - f.nextId]?).map Prod.snd := by
    intro p
    rw [addBatch_index, base.stored_add, List.getElem?_append,
      show (base.stored f.index).length = f.nextId from ha, List.getElem?_map]
  constructor
  · rintro ⟨p, hp, hv⟩
    rw [hget] at hv
    rcases (addBatch_liveAt hf rt batch p x).mp hp with h | ⟨hle, w, hw⟩
    · rw [if_pos (h.lt hf)] at hv
      exact Or.inl ⟨p, h, hv⟩
    · rw [if_neg (by omega), hw] at hv
      cases hv
      exact Or.inr (List.mem_of_getElem? hw)
  · rintro (⟨p, hp, hv⟩ | hmem)
    · refine ⟨p, (addBatch_liveAt hf rt batch p x).mpr (Or.inl hp), ?_⟩
      rw [hget, if_pos (hp.lt hf), hv]
    · obtain ⟨n, hn⟩ := List.mem_iff_getElem?.mp hmem
      have hsub : f.nextId + n - f.nextId = n := by omega
      refine ⟨f.nextId + n, (addBatch_liveAt hf rt batch _ x).mpr (Or.inr ⟨by omega, v, ?_⟩), ?_⟩
      · rw [hsub, hn]
      · rw [hget, if_neg (by omega), hsub, hn]
        rfl

/-- An erase removes the rows of the ids it names, unless one is out of its reach. -/
theorem eraseBatch_holds {f : FaissIndex B ID} (hf : f.Wf) (ids : List ID) {x : ID}
    (hu : f.UnshadowedId x) (v : Vec) :
    (f.eraseBatch ids).Holds base x v ↔ f.Holds base x v ∧ x ∉ ids := by
  constructor
  · rintro ⟨p, hp, hv⟩
    obtain ⟨hlive, hno⟩ := (eraseBatch_liveAt hf ids p x).mp hp
    rw [eraseBatch_index] at hv
    exact ⟨⟨p, hlive, hv⟩, fun hx => hno ⟨hx, hu p hlive⟩⟩
  · rintro ⟨⟨p, hp, hv⟩, hx⟩
    refine ⟨p, (eraseBatch_liveAt hf ids p x).mpr ⟨hp, fun h => hx h.1⟩, ?_⟩
    rw [eraseBatch_index]
    exact hv

/-- An erase brings no rows. -/
theorem Holds.of_eraseBatch {f : FaissIndex B ID} (hf : f.Wf) {ids : List ID} {x : ID} {v : Vec}
    (h : (f.eraseBatch ids).Holds base x v) : f.Holds base x v := by
  obtain ⟨p, hp, hv⟩ := h
  rw [eraseBatch_index] at hv
  exact ⟨p, ((eraseBatch_liveAt hf ids p x).mp hp).1, hv⟩

/-- The rows a merge copies are the held ones. -/
theorem mem_survivors_iff_holds {f : FaissIndex B ID} (hf : f.Wf) (ha : f.Aligned base) (x : ID)
    (v : Vec) : (x, v) ∈ f.survivors rt ↔ f.Holds base x v := by
  rw [mem_survivors]
  constructor
  · rintro ⟨p, hp, rfl⟩
    obtain ⟨w, hrow⟩ := LiveAt.exists_row base hf ha hp
    rw [base.reconstruct_stored _ _ _ hrow.2]
    exact ⟨p, hrow⟩
  · rintro ⟨p, hp, hv⟩
    exact ⟨p, hp, (base.reconstruct_stored _ _ _ hv).symm⟩

end FaissIndex

end Vecodex
