import Vecodex.Laws.Base
import Vecodex.Laws.Total

/-!
# Sizes of segments

`size()` of a wrapper subtracts the number of erased positions from the number of ids ever bound.
An id that is bound once and erased counts for one on both sides. An id that is bound again after an
erase, or erased while it has several positions, is still live and counts as erased too.

So the size is the number of live ids exactly when every erased position is the only one of its id
(`FaissIndex.net_eq_iff`), in every state that calls on wrappers reach (`size_exact_iff`).
-/

namespace Vecodex

open Lib

variable {B ID Vec Dist : Type} [DecidableEq ID]

namespace FaissIndex

/-- The ids with a position in `inv_ids_` that is not in `erased_`. -/
def liveIds (f : FaissIndex B ID) : Finset ID :=
  ((f.invIds.entries.filter fun e => e.1 ∉ f.erased).map Sigma.snd).toFinset

theorem mem_liveIds {f : FaissIndex B ID} {x : ID} : x ∈ f.liveIds ↔ f.LiveId x := by
  simp only [liveIds, LiveId, liveAt_iff, List.mem_toFinset, List.mem_map, List.mem_filter,
    decide_eq_true_eq]
  constructor
  · rintro ⟨⟨p, x⟩, hlive, rfl⟩
    exact ⟨p, hlive⟩
  · rintro ⟨p, hlive⟩
    exact ⟨⟨p, x⟩, hlive, rfl⟩

/-- `size()` counts the live ids, and its subtraction does not wrap. -/
def SizeExact (f : FaissIndex B ID) : Prop := (f.size : Int) = f.net ∧ f.size = f.liveIds.card

/-- An erased position is the only one of its id. -/
def ErasedOnce (f : FaissIndex B ID) : Prop :=
  ∀ p ∈ f.erased, ∀ x, f.invIds.lookup p = some x → ∀ q, f.invIds.lookup q = some x → q = p

/-- An id with a position is bound to its last one. -/
theorem Wf.mem_ids {f : FaissIndex B ID} (hf : f.Wf) {p : Nat} {x : ID}
    (hp : f.invIds.lookup p = some x) : x ∈ f.ids := by
  -- the positions of x are below nextId, so there is a greatest one
  let positions := (Finset.range f.nextId).filter fun q => f.invIds.lookup q = some x
  have hmem : ∀ q, q ∈ positions ↔ f.invIds.lookup q = some x := by
    intro q
    simp only [positions, Finset.mem_filter, Finset.mem_range, and_iff_right_iff_imp]
    intro hq
    exact (hf.bound q).mp (AList.lookup_isSome.mp (by rw [hq]; rfl))
  have hsome : positions.Nonempty := ⟨p, (hmem p).mpr hp⟩
  have hlatest : f.ids.lookup x = some (positions.max' hsome) :=
    (hf.latest x _).mpr ⟨(hmem _).mp (positions.max'_mem hsome),
      fun q hq => positions.le_max' q ((hmem q).mpr hq)⟩
  exact AList.lookup_isSome.mp (by rw [hlatest]; rfl)

/-- The bound ids are those with a position. -/
theorem Wf.mem_ids_iff {f : FaissIndex B ID} (hf : f.Wf) {x : ID} :
    x ∈ f.ids ↔ ∃ p, f.invIds.lookup p = some x := by
  refine ⟨fun hx => ?_, fun ⟨p, hp⟩ => hf.mem_ids hp⟩
  obtain ⟨p, hp⟩ := Option.isSome_iff_exists.mp (AList.lookup_isSome.mpr hx)
  exact ⟨p, ((hf.latest x p).mp hp).1⟩

section Counting

variable {f : FaissIndex B ID} (hf : f.Wf)
include hf

/-- The bound ids are live, or all their positions are erased. -/
theorem card_keys : f.ids.keys.length =
    f.liveIds.card + (f.ids.keys.toFinset \ f.liveIds).card := by
  have hsub : f.liveIds ⊆ f.ids.keys.toFinset := by
    intro x hx
    obtain ⟨p, hp⟩ := mem_liveIds.mp hx
    exact List.mem_toFinset.mpr (AList.mem_keys.mp (hf.mem_ids hp.1))
  rw [← List.toFinset_card_of_nodup f.ids.keys_nodup, Nat.add_comm,
    Finset.card_sdiff_add_card_eq_card hsub]

/-- A dead id has an erased position. -/
theorem dead_subset : (f.ids.keys.toFinset \ f.liveIds).image some ⊆
    f.erased.image fun p => f.invIds.lookup p := by
  intro o ho
  obtain ⟨x, hx, rfl⟩ := Finset.mem_image.mp ho
  obtain ⟨hbound, hdead⟩ := Finset.mem_sdiff.mp hx
  obtain ⟨p, hp⟩ := Option.isSome_iff_exists.mp
    (AList.lookup_isSome.mpr (AList.mem_keys.mpr (List.mem_toFinset.mp hbound)))
  have hinv := ((hf.latest x p).mp hp).1
  refine Finset.mem_image.mpr ⟨p, ?_, hinv⟩
  by_contra herased
  exact hdead (mem_liveIds.mpr ⟨p, hinv, herased⟩)

theorem dead_card_eq_iff : (f.ids.keys.toFinset \ f.liveIds).card = f.erased.card ↔
    f.ErasedOnce := by
  have hdead : ((f.ids.keys.toFinset \ f.liveIds).image some).card =
      (f.ids.keys.toFinset \ f.liveIds).card :=
    Finset.card_image_of_injective _ (Option.some_injective ID)
  have himage : (f.erased.image fun p => f.invIds.lookup p).card ≤ f.erased.card :=
    Finset.card_image_le
  have hsub := dead_subset hf
  have hle := Finset.card_le_card hsub
  constructor
  · intro hcard p hp x hpx q hqx
    -- the ids of the erased positions are the dead ids, and they are all different
    have hinj := Finset.card_image_iff.mp (Nat.le_antisymm himage (by omega))
    have hsame := Finset.eq_of_subset_of_card_le hsub (by omega)
    have hx : some x ∈ (f.ids.keys.toFinset \ f.liveIds).image some := by
      rw [hsame]
      exact Finset.mem_image.mpr ⟨p, hp, hpx⟩
    obtain ⟨y, hy, heq⟩ := Finset.mem_image.mp hx
    obtain rfl := Option.some.inj heq
    have hq : q ∈ f.erased := by
      by_contra herased
      exact (Finset.mem_sdiff.mp hy).2 (mem_liveIds.mpr ⟨q, hqx, herased⟩)
    exact hinj hq hp (hqx.trans hpx.symm)
  · intro honce
    have hbound : ∀ p ∈ f.erased, ∃ x, f.invIds.lookup p = some x := fun p hp =>
      Option.isSome_iff_exists.mp (AList.lookup_isSome.mpr ((hf.bound p).mpr (hf.erased_lt p hp)))
    have hinj : (f.erased.image fun p => f.invIds.lookup p).card = f.erased.card := by
      apply Finset.card_image_of_injOn
      intro p hp q hq heq
      obtain ⟨x, hx⟩ := hbound q hq
      exact honce q hq x hx p (heq.trans hx)
    have hsame : (f.erased.image fun p => f.invIds.lookup p) ⊆
        (f.ids.keys.toFinset \ f.liveIds).image some := by
      intro o ho
      obtain ⟨p, hp, rfl⟩ := Finset.mem_image.mp ho
      obtain ⟨x, hx⟩ := hbound p hp
      refine Finset.mem_image.mpr ⟨x, Finset.mem_sdiff.mpr ⟨?_, fun hlive => ?_⟩, hx.symm⟩
      · exact List.mem_toFinset.mpr (AList.mem_keys.mp (hf.mem_ids hx))
      · obtain ⟨q, hqx, hq⟩ := mem_liveIds.mp hlive
        exact hq (honce p hp x hx q hqx ▸ hp)
    rw [← hdead, ← hinj, Finset.Subset.antisymm hsub hsame]

/-- The difference of the two numbers is the number of live ids if and only if every erased position
is the only one of its id. -/
theorem net_eq_iff : f.net = f.liveIds.card ↔ f.ErasedOnce := by
  rw [← dead_card_eq_iff hf, net, card_keys hf]
  omega

end Counting

theorem Wf.sizeExact_iff {f : FaissIndex B ID} (hf : f.Wf) :
    f.SizeExact ↔ f.ErasedOnce ∧ f.liveIds.card < 2 ^ 64 := by
  rw [← net_eq_iff hf, SizeExact]
  show ((sizeT f.net : Nat) : Int) = f.net ∧ sizeT f.net = f.liveIds.card ↔ _
  unfold sizeT
  omega

end FaissIndex

/-! ## Histories of wrappers -/

/-- A call on wrapper objects, which are named by pointers. -/
inductive FaissCall (ID Vec : Type)
  | construct (kind : BaseKind)
  | addBatch (o : Nat) (batch : List (ID × Vec))
  | eraseBatch (o : Nat) (ids : List ID)
  | mergeFromOther (o other : Nat)
  deriving DecidableEq, Repr

namespace FaissCall

/-- A merge that throws leaves the objects as they were. -/
def exec (rt : Runtime B ID Vec Dist) (objects : Heap (FaissIndex B ID)) :
    FaissCall ID Vec → Heap (FaissIndex B ID)
  | .construct kind => objects.alloc (FaissIndex.create rt kind)
  | .addBatch o batch => objects.modify o fun f => f.addBatch rt batch
  | .eraseBatch o ids => objects.modify o fun f => f.eraseBatch ids
  | .mergeFromOther o other =>
    match (objects.get o).mergeFromOther rt (objects.get other) with
    | .ok f => objects.set o f
    | .error _ => objects

/-- The objects after a history. -/
def run (rt : Runtime B ID Vec Dist) (calls : List (FaissCall ID Vec)) : Heap (FaissIndex B ID) :=
  calls.foldl (exec rt) (Heap.empty (FaissIndex.create rt .flat))

/-- What a fresh wrapper has and every call on one wrapper keeps, a call on the objects keeps. -/
theorem exec_keeps {rt : Runtime B ID Vec Dist} {P : FaissIndex B ID → Prop}
    (create : ∀ kind, P (FaissIndex.create rt kind))
    (add : ∀ f batch, P f → P (f.addBatch rt batch)) (erase : ∀ f ids, P f → P (f.eraseBatch ids))
    {objects : Heap (FaissIndex B ID)} (h : ∀ o, P (objects.get o)) (call : FaissCall ID Vec)
    (o : Nat) : P ((exec rt objects call).get o) := by
  have hset : ∀ (p : Nat) (f : FaissIndex B ID), P f → P ((objects.set p f).get o) := by
    intro p f hf
    by_cases ho : o = p
    · rw [ho, Heap.set_get_self]
      exact hf
    · rw [Heap.set_get_of_ne f ho]
      exact h o
  cases call with
  | construct kind =>
    by_cases ho : o = objects.next
    · rw [ho, exec, Heap.alloc_get_next]
      exact create kind
    · rw [exec, Heap.alloc_get_of_ne _ ho]
      exact h o
  | addBatch p batch => exact hset p _ (add _ batch (h p))
  | eraseBatch p ids => exact hset p _ (erase _ ids (h p))
  | mergeFromOther p other =>
    rw [exec]
    split
    · next f hmerge =>
      obtain ⟨-, rfl⟩ := FaissIndex.mergeFromOther_eq_ok.mp hmerge
      exact hset p _ (add _ _ (h p))
    · exact h o

theorem exec_wf {rt : Runtime B ID Vec Dist} {objects : Heap (FaissIndex B ID)}
    (h : ∀ o, (objects.get o).Wf) (call : FaissCall ID Vec) (o : Nat) :
    ((exec rt objects call).get o).Wf :=
  exec_keeps (FaissIndex.wf_create rt) (fun _ batch hf => hf.addBatch rt batch)
    (fun _ ids hf => hf.eraseBatch ids) h call o

theorem run_wf (rt : Runtime B ID Vec Dist) (calls : List (FaissCall ID Vec)) (o : Nat) :
    ((run rt calls : Heap (FaissIndex B ID)).get o).Wf := by
  induction calls using List.reverseRecOn generalizing o with
  | nil => exact FaissIndex.wf_create rt .flat
  | append_singleton calls call ih =>
    rw [run, List.foldl_append]
    exact exec_wf ih call o

end FaissCall

/-- After every history, `size()` of an object is the number of its live ids if and only if every
erased position is the only one of its id, and the number fits into 64 bits. -/
theorem size_exact_iff (rt : Runtime B ID Vec Dist) (calls : List (FaissCall ID Vec)) (o : Nat) :
    ((FaissCall.run rt calls : Heap (FaissIndex B ID)).get o).SizeExact ↔
      ((FaissCall.run rt calls : Heap (FaissIndex B ID)).get o).ErasedOnce ∧
        ((FaissCall.run rt calls : Heap (FaissIndex B ID)).get o).liveIds.card < 2 ^ 64 :=
  (FaissCall.run_wf rt calls o).sizeExact_iff

/-- An id that is erased and added again is live and not counted. When it is erased again the
difference wraps. -/
theorem readded_id_miscounted :
    ((FaissCall.run (lineRuntime Nat id) [.construct .flat, .addBatch 0 [(7, 10)],
        .eraseBatch 0 [7], .addBatch 0 [(7, 20)]]).get 0).size = 0 ∧
      ((FaissCall.run (lineRuntime Nat id) [.construct .flat, .addBatch 0 [(7, 10)],
        .eraseBatch 0 [7], .addBatch 0 [(7, 20)]]).get 0).liveIds = {7} ∧
      ((FaissCall.run (lineRuntime Nat id) [.construct .flat, .addBatch 0 [(7, 10)],
        .eraseBatch 0 [7], .addBatch 0 [(7, 20)], .eraseBatch 0 [7]]).get 0).size = 2 ^ 64 - 1 := by
  decide +kernel

end Vecodex
