import Mathlib.Data.Multiset.Basic
import Vecodex.Laws.Codec
import Vecodex.Laws.SegmentSearch
import Vecodex.Laws.Sizes

/-!
# Wrappers over whole histories

A wrapper keeps four things beside its base index, and only counting keeps them aligned: the next
position, the two maps between ids and positions, and the erased positions. `Represents` says how
they fit together. It holds of every object that any calls on wrappers reach, the objects read
back from a file included (`wrapper_representation`).

`liveRows` is what a wrapper is for: the rows at the positions that are not erased, as a multiset,
so that an id or a row may occur many times. A merge adds the rows of the other wrapper to it,
whatever order the hash map hands them out in.

`Finds` says what a search of one wrapper has to return. `single_search_finds` says that it does,
after every history.
-/

namespace Vecodex

open Lib

variable {B ID Vec Dist : Type} [DecidableEq ID]

namespace FaissCall

theorem exec_aligned {rt : Runtime B ID Vec Dist} (base : StoringBase rt.faiss)
    {objects : Heap (FaissIndex B ID)} (h : ∀ o, (objects.get o).Aligned base)
    (call : FaissCall ID Vec) (o : Nat) : ((exec rt objects call).get o).Aligned base :=
  exec_keeps (FaissIndex.aligned_create base) (fun _ batch hf => hf.addBatch base batch)
    (fun _ ids hf => hf.eraseBatch base ids) h call o

theorem run_aligned {rt : Runtime B ID Vec Dist} (base : StoringBase rt.faiss)
    (calls : List (FaissCall ID Vec)) (o : Nat) :
    ((run rt calls : Heap (FaissIndex B ID)).get o).Aligned base := by
  induction calls using List.reverseRecOn generalizing o with
  | nil => exact FaissIndex.aligned_create base .flat
  | append_singleton calls call ih =>
    rw [run, List.foldl_append]
    exact exec_aligned base ih call o

/-- A merge of two wrappers of one kind replaces the receiver. -/
theorem exec_mergeFromOther {rt : Runtime B ID Vec Dist} {objects : Heap (FaissIndex B ID)}
    {o other : Nat} (h : (objects.get o).kind = (objects.get other).kind) :
    exec rt objects (.mergeFromOther o other) =
      objects.set o ((objects.get o).addBatch rt ((objects.get other).survivors rt)) := by
  rw [exec, FaissIndex.mergeFromOther_eq_ok.mpr ⟨h, rfl⟩]

theorem exec_mergeFromOther_of_ne {rt : Runtime B ID Vec Dist} {objects : Heap (FaissIndex B ID)}
    {o other p : Nat} (hp : p ≠ o) :
    (exec rt objects (.mergeFromOther o other : FaissCall ID Vec)).get p = objects.get p := by
  rw [exec]
  split
  · exact Heap.set_get_of_ne _ hp
  · rfl

end FaissCall

/-! ## The search of one wrapper -/

section Finds

variable [LinearOrder Dist] {rt : Runtime B ID Vec Dist} {metric : Vec → Vec → Dist}
  (base : ExactBase rt.faiss metric)

/-- What a search for `k` results has to return: `answer` lists the rows of `positions`, which are
as many live positions as there can be, nearest first, with no nearer one left out. -/
structure FaissIndex.Finds (f : FaissIndex B ID) (k : Nat) (q : Vec) (positions : List Nat)
    (answer : List (ID × Dist)) : Prop where
  count : answer.length = min k f.liveCount
  distinct : positions.Nodup
  live : ∀ p ∈ positions, p < f.nextId ∧ p ∉ f.erased
  rows : List.Forall₂ (fun p e => f.invIds.lookup p = some e.1 ∧
    ∃ v, (base.stored f.index)[p]? = some v ∧ e.2 = metric q v) positions answer
  ascending : (answer.map Prod.snd).Pairwise (· ≤ ·)
  nearest : ∀ p v, p < f.nextId → p ∉ f.erased → p ∉ positions →
    (base.stored f.index)[p]? = some v → ∀ e ∈ answer, e.2 ≤ metric q v

namespace FaissIndex

omit [DecidableEq ID] in
theorem pairwise_chosen (f : FaissIndex B ID) (k : Nat) (q : Vec) :
    ((f.chosen rt k q).map fun r => (ofLex r).1).Pairwise (· ≤ ·) := by
  have hsorted := List.pairwise_insertionSort (· ≤ ·) (f.candidates rt k q)
  have hchosen := hsorted.sublist (List.take_sublist k _)
  exact List.pairwise_map.mpr (hchosen.imp fun h => Prod.Lex.monotone_fst _ _ h)

theorem singleSearch_finds {f : FaissIndex B ID} (hf : f.Wf)
    (ha : f.Aligned base.toStoringBase) (k : Nat) (q : Vec) :
    ∃ positions answer, f.singleSearch rt k q = .ok answer ∧
      f.Finds base k q positions answer := by
  obtain ⟨answer, hanswer, hrel⟩ := f.singleSearch_total rt k q
  refine ⟨(f.chosen rt k q).map fun r => (ofLex r).2, answer, hanswer, ?_⟩
  have hdist : (f.chosen rt k q).map (fun r => (ofLex r).1) = answer.map Prod.snd :=
    forall₂_map_eq hrel fun r e h => h.2.symm
  constructor
  · rw [← hrel.length_eq]
    exact chosen_count base hf ha k q
  · exact nodup_chosen_pos base k q
  · intro p hp
    have hlive := chosen_pos_subset hf k q (List.mem_toFinset.mpr hp)
    simpa only [Finset.mem_sdiff, Finset.mem_range] using hlive
  · rw [List.forall₂_map_left_iff]
    refine ((List.forall₂_and_left _ _).mpr ⟨fun r hr => hr, hrel⟩).imp fun r e h => ?_
    obtain ⟨hr, hx, hd⟩ := h
    obtain ⟨x, v, hrow, hv⟩ := row_of_chosen base k q hr
    exact ⟨hx, v, hrow.2, hd.trans hv⟩
  · rw [← hdist]
    exact pairwise_chosen f k q
  · intro p v hlt hlive hout hv e he
    obtain ⟨x, hx⟩ := (mem_live_positions hf).mp
      (Finset.mem_sdiff.mpr ⟨Finset.mem_range.mpr hlt, hlive⟩)
    obtain ⟨r, hr, -, hd⟩ := forall₂_exists_left hrel he
    rw [hd]
    exact (chosen_nearest base hf ha k q ⟨hx, hv⟩ hout).2 r hr

end FaissIndex

/-- After every history, a search of a wrapper returns the nearest of its live positions. -/
theorem single_search_finds (calls : List (FaissCall ID Vec)) (o k : Nat) (q : Vec) :
    ∃ positions answer,
      ((FaissCall.run rt calls : Heap (FaissIndex B ID)).get o).singleSearch rt k q = .ok answer ∧
        ((FaissCall.run rt calls).get o).Finds base k q positions answer :=
  FaissIndex.singleSearch_finds base (FaissCall.run_wf rt calls o)
    (FaissCall.run_aligned base.toStoringBase calls o) k q

end Finds

/-- An id with three vectors, one of them from another wrapper, and an id that is erased. -/
def repeatedCalls : List (FaissCall Nat Nat) :=
  [.construct .flat, .addBatch 0 [(7, 10), (8, 20), (7, 30)], .eraseBatch 0 [8], .construct .flat,
    .addBatch 1 [(7, 12)], .mergeFromOther 0 1]

def exactLine : ExactBase (lineRuntime Nat id).faiss lineMetric := flatBase_exact lineMetric

/-- The erased vector would be the nearest; the next two belong to one id. -/
theorem single_search_finds_repeated :
    ∃ positions, ((FaissCall.run (lineRuntime Nat id) repeatedCalls).get 0).Finds exactLine 2 19
      positions [(7, 7), (7, 9)] := by
  obtain ⟨positions, answer, hanswer, hfinds⟩ := single_search_finds exactLine repeatedCalls 0 2 19
  have hsearch : ((FaissCall.run (lineRuntime Nat id) repeatedCalls).get 0).singleSearch
      (lineRuntime Nat id) 2 19 = .ok [(7, 7), (7, 9)] := by decide +kernel
  cases hanswer.symm.trans hsearch
  exact ⟨positions, hfinds⟩

/-! ## The rows of a wrapper -/

/-- Reading a list position by position reads the list. -/
theorem filterMap_range_getElem? {α : Type} (l : List α) :
    (List.range l.length).filterMap (fun i => l[i]?) = l := by
  induction l with
  | nil => rfl
  | cons a l ih =>
    rw [List.length_cons, List.range_succ_eq_map, List.filterMap_cons, List.filterMap_map]
    simpa [Function.comp_def] using ih

/-- A traversal that keeps the elements with a property and maps them. -/
theorem map_filter_eq_filterMap {α β : Type} {keep : α → Bool} {g : α → β} {h : α → Option β}
    {l : List α} (hh : ∀ a ∈ l, h a = if keep a then some (g a) else none) :
    (l.filter keep).map g = l.filterMap h := by
  rw [List.filterMap_congr hh, ← List.filterMap_eq_map, List.filterMap_filter]
  rfl

namespace FaissIndex

section LiveRows

variable {rt : Runtime B ID Vec Dist} (base : StoringBase rt.faiss)

/-- The row at a position, if there is one and it is not erased. -/
def rowAt (f : FaissIndex B ID) (p : Nat) : Option (ID × Vec) :=
  if p ∈ f.erased then none
  else (f.invIds.lookup p).bind fun x => ((base.stored f.index)[p]?).map fun v => (x, v)

/-- The rows at the positions that are not erased, each as often as it occurs. -/
def liveRows (f : FaissIndex B ID) : Multiset (ID × Vec) :=
  ((List.range f.nextId).filterMap (f.rowAt base) : List (ID × Vec))

/-- The positions `merge_from_other` asks the base index of `f` to reconstruct. -/
def idxs (rt : Runtime B ID Vec Dist) (f : FaissIndex B ID) : List Nat :=
  ((rt.invOrder.arrange f.invIds.entries).filter fun e => e.1 ∉ f.erased).map Sigma.fst

omit [DecidableEq ID] in
/-- The rows a merge copies carry the vectors of these positions. -/
theorem survivors_vectors (f : FaissIndex B ID) :
    (f.survivors rt).map Prod.snd = (f.idxs rt).map (rt.faiss.reconstruct f.index) := by
  simp only [survivors, idxs, List.map_map]
  rfl

omit [DecidableEq ID] in
theorem mem_idxs {f : FaissIndex B ID} {p : Nat} :
    p ∈ f.idxs rt ↔ ∃ x, f.LiveAt p x := by
  simp only [idxs, LiveAt, List.mem_map, List.mem_filter, rt.invOrder.mem_arrange,
    decide_eq_true_eq]
  constructor
  · rintro ⟨⟨p, x⟩, ⟨hmem, hlive⟩, rfl⟩
    exact ⟨x, AList.mem_lookup_iff.mpr hmem, hlive⟩
  · rintro ⟨x, hx, hlive⟩
    exact ⟨⟨p, x⟩, ⟨AList.mem_lookup_iff.mp hx, hlive⟩, rfl⟩

theorem addBatch_rowAt_old {f : FaissIndex B ID} (ha : f.Aligned base) (batch : List (ID × Vec))
    {p : Nat} (hp : p < f.nextId) : (f.addBatch rt batch).rowAt base p = f.rowAt base p := by
  have hstored : (base.stored (f.addBatch rt batch).index)[p]? = (base.stored f.index)[p]? := by
    rw [addBatch_index, base.stored_add]
    exact List.getElem?_append_left (by rw [ha]; exact hp)
  have hids : (f.addBatch rt batch).invIds.lookup p = f.invIds.lookup p := by
    rw [addBatch_lookup_inv, if_neg fun h => absurd h.1 (Nat.not_le.mpr hp)]
  simp only [rowAt, addBatch_erased, hstored, hids]

theorem addBatch_rowAt_new {f : FaissIndex B ID} (hf : f.Wf) (ha : f.Aligned base)
    (batch : List (ID × Vec)) (i : Nat) :
    (f.addBatch rt batch).rowAt base (f.nextId + i) = batch[i]? := by
  have hstored : (base.stored (f.addBatch rt batch).index)[f.nextId + i]? =
      (batch[i]?).map Prod.snd := by
    rw [addBatch_index, base.stored_add, List.getElem?_append_right (by rw [ha]; omega), ha,
      Nat.add_sub_cancel_left, List.getElem?_map]
  have hids : (f.addBatch rt batch).invIds.lookup (f.nextId + i) = (batch[i]?).map Prod.fst := by
    rw [addBatch_lookup_inv, Nat.add_sub_cancel_left]
    split
    · rfl
    · next hout =>
      rw [List.getElem?_eq_none (by omega), hf.lookup_none (Nat.le_add_right _ i)]
      rfl
  have hlive : f.nextId + i ∉ f.erased := fun h => absurd (hf.erased_lt _ h) (by omega)
  rw [rowAt, addBatch_erased, if_neg hlive, hstored, hids]
  cases batch[i]? <;> rfl

/-- A batch adds its rows. -/
theorem addBatch_liveRows {f : FaissIndex B ID} (hf : f.Wf) (ha : f.Aligned base)
    (batch : List (ID × Vec)) :
    (f.addBatch rt batch).liveRows base = f.liveRows base + (batch : Multiset (ID × Vec)) := by
  have hold : (List.range f.nextId).filterMap ((f.addBatch rt batch).rowAt base) =
      (List.range f.nextId).filterMap (f.rowAt base) :=
    List.filterMap_congr fun p hp => addBatch_rowAt_old base ha batch (List.mem_range.mp hp)
  have hnew : ((List.range batch.length).map (f.nextId + ·)).filterMap
      ((f.addBatch rt batch).rowAt base) = batch := by
    rw [List.filterMap_map]
    simp only [Function.comp_def, addBatch_rowAt_new base hf ha]
    exact filterMap_range_getElem? batch
  rw [liveRows, liveRows, addBatch_nextId, List.range_add, List.filterMap_append, hold, hnew,
    Multiset.coe_add]

/-- The rows a merge copies are the live ones, in some order. -/
theorem coe_survivors {f : FaissIndex B ID} (hf : f.Wf) (ha : f.Aligned base) :
    (f.survivors rt : Multiset (ID × Vec)) = f.liveRows base := by
  have hkeys : (f.invIds.entries.map Sigma.fst).Perm (List.range f.nextId) := by
    refine (List.perm_ext_iff_of_nodup f.invIds.keys_nodup List.nodup_range).mpr fun p => ?_
    rw [List.mem_range, ← hf.bound]
    exact AList.mem_keys.symm
  have hrow : ∀ e ∈ rt.invOrder.arrange f.invIds.entries, f.rowAt base e.1 =
      if decide (e.1 ∉ f.erased) then some (e.2, rt.faiss.reconstruct f.index e.1) else none := by
    intro e he
    have hx : f.invIds.lookup e.1 = some e.2 :=
      AList.mem_lookup_iff.mpr (rt.invOrder.mem_arrange.mp he)
    by_cases hlive : e.1 ∈ f.erased
    · simp [rowAt, hlive]
    · obtain ⟨v, hrow⟩ := LiveAt.exists_row base hf ha ⟨hx, hlive⟩
      simp [rowAt, hlive, hx, hrow.2, base.reconstruct_stored _ _ _ hrow.2]
  have hperm : ((rt.invOrder.arrange f.invIds.entries).map Sigma.fst).Perm
      (List.range f.nextId) := ((rt.invOrder.perm _).map _).trans hkeys
  rw [survivors, map_filter_eq_filterMap hrow, liveRows, Multiset.coe_eq_coe]
  simpa only [List.filterMap_map, Function.comp_def] using hperm.filterMap (f.rowAt base)

/-- How the parts of a wrapper fit together. -/
structure Represents (f : FaissIndex B ID) : Prop where
  count : f.nextId = (base.stored f.index).length
  positions : ∀ p, p ∈ f.invIds ↔ p < f.nextId
  latest : ∀ x p, f.ids.lookup x = some p ↔
    f.invIds.lookup p = some x ∧ ∀ p', f.invIds.lookup p' = some x → p' ≤ p
  defined : ∀ x, x ∈ f.ids ↔ ∃ p, f.invIds.lookup p = some x
  erased : ∀ p ∈ f.erased, p < f.nextId

theorem Wf.represents {f : FaissIndex B ID} (hf : f.Wf) (ha : f.Aligned base) :
    f.Represents base where
  count := ha.symm
  positions := hf.bound
  latest := hf.latest
  defined _ := hf.mem_ids_iff
  erased := hf.erased_lt

/-- `g` is `f` after `merge_from_other(other)`. -/
structure MergedFrom (f other g : FaissIndex B ID) : Prop where
  rows : g.liveRows base = f.liveRows base + other.liveRows base
  positions : ∀ p < f.nextId, g.invIds.lookup p = f.invIds.lookup p ∧
    (base.stored g.index)[p]? = (base.stored f.index)[p]?
  tombstones : g.erased = f.erased
  copied : (other.survivors rt).map Prod.snd =
    (other.idxs rt).map (rt.faiss.reconstruct other.index)
  existing : ∀ p ∈ other.idxs rt, p < (base.stored other.index).length

theorem mergedFrom_addBatch {f other : FaissIndex B ID} (hf : f.Wf) (ha : f.Aligned base)
    (hother : other.Wf) (hother' : other.Aligned base) :
    f.MergedFrom base other (f.addBatch rt (other.survivors rt)) where
  rows := by rw [addBatch_liveRows base hf ha, coe_survivors base hother hother']
  positions p hp := by
    refine ⟨?_, ?_⟩
    · rw [addBatch_lookup_inv, if_neg fun h => absurd h.1 (Nat.not_le.mpr hp)]
    · rw [addBatch_index, base.stored_add]
      exact List.getElem?_append_left (by rw [ha]; exact hp)
  tombstones := addBatch_erased rt f _
  copied := survivors_vectors other
  existing p hp := by
    obtain ⟨x, hx⟩ := mem_idxs.mp hp
    rw [hother']
    exact hx.lt hother

end LiveRows

end FaissIndex

/-! ## Histories with files -/

/-- A call on wrapper objects, or a round trip: the object at `o` is written to a file, and a new
object is constructed from the file. -/
inductive FaissEvent (Vec : Type)
  | call (c : FaissCall Text Vec)
  | reload (o : Nat) (kind : BaseKind)
  deriving DecidableEq

namespace FaissEvent

variable (rt : Runtime B Text Vec Dist) (files : Files B)

def exec (objects : Heap (FaissIndex B Text)) : FaissEvent Vec → Heap (FaissIndex B Text)
  | .call c => c.exec rt objects
  | .reload o kind =>
    match FaissIndex.ofFile files kind ((objects.get o).serializeIndex rt files) with
    | .ok (f, _) => objects.alloc f
    | .error _ => objects

/-- The objects after a history. -/
def run (events : List (FaissEvent Vec)) : Heap (FaissIndex B Text) :=
  events.foldl (exec rt files) (Heap.empty (FaissIndex.create rt .flat))

/-- The positions of an object that is written are values of `faiss::idx_t`. -/
def InRange (objects : Heap (FaissIndex B Text)) : FaissEvent Vec → Prop
  | .call _ => True
  | .reload o _ => (objects.get o).nextId < 2 ^ 63

variable {rt} {objects : Heap (FaissIndex B Text)}

/-- A reloaded object has the content of the one that was written. -/
theorem exec_reload (h : ∀ o, (objects.get o).Wf) {o : Nat} (kind : BaseKind)
    (hrange : (objects.get o).nextId < 2 ^ 63) :
    ∃ f, exec rt files objects (.reload o kind : FaissEvent Vec) = objects.alloc f ∧
      f.Same (objects.get o) := by
  have hfits : (objects.get o).Fits := (h o).fits (by omega)
  obtain ⟨f, hf, hsame, -⟩ := FaissIndex.ofFile_serializeIndex hfits [] rt files kind
  rw [List.append_nil] at hf
  exact ⟨f, by rw [exec, hf], hsame⟩

theorem exec_wf_aligned (base : StoringBase rt.faiss)
    (h : ∀ o, (objects.get o).Wf ∧ (objects.get o).Aligned base) {event : FaissEvent Vec}
    (hrange : event.InRange objects) (o : Nat) :
    ((exec rt files objects event).get o).Wf ∧
      ((exec rt files objects event).get o).Aligned base := by
  cases event with
  | call c =>
    exact ⟨FaissCall.exec_wf (fun o => (h o).1) c o,
      FaissCall.exec_aligned base (fun o => (h o).2) c o⟩
  | reload p kind =>
    obtain ⟨f, hexec, hsame⟩ := exec_reload files (fun o => (h o).1) kind hrange
    rw [hexec]
    by_cases ho : o = objects.next
    · rw [ho, Heap.alloc_get_next]
      refine ⟨hsame.wf (h p).1, ?_⟩
      rw [FaissIndex.Aligned, hsame.index, hsame.nextId]
      exact (h p).2
    · rw [Heap.alloc_get_of_ne _ ho]
      exact h o

/-- The histories whose round trips stay in range keep every object well formed. -/
theorem run_wf_aligned (base : StoringBase rt.faiss) {events : List (FaissEvent Vec)}
    (hrange : ∀ part event, part ++ [event] <+: events → event.InRange (run rt files part))
    (o : Nat) :
    ((run rt files events).get o).Wf ∧ ((run rt files events).get o).Aligned base := by
  induction events using List.reverseRecOn generalizing o with
  | nil => exact ⟨FaissIndex.wf_create rt .flat, FaissIndex.aligned_create base .flat⟩
  | append_singleton events event ih =>
    have hearlier := ih fun part e hpart => hrange part e (hpart.trans (List.prefix_append _ _))
    rw [run, List.foldl_append]
    exact exec_wf_aligned files base hearlier (hrange events event (List.prefix_refl _)) o

theorem run_merge (events : List (FaissEvent Vec)) (o other : Nat) :
    run rt files (events ++ [.call (.mergeFromOther o other)]) =
      FaissCall.exec rt (run rt files events) (.mergeFromOther o other) := by
  rw [run, List.foldl_append]
  rfl

end FaissEvent

/-- After every history, the parts of every wrapper fit together, and a merge of two wrappers adds
the live rows of the one to those of the other and changes nothing else. -/
theorem wrapper_representation {rt : Runtime B Text Vec Dist} (base : StoringBase rt.faiss)
    (files : Files B) (events : List (FaissEvent Vec))
    (hrange : ∀ part event, part ++ [event] <+: events →
      event.InRange (FaissEvent.run rt files part)) :
    (∀ o, ((FaissEvent.run rt files events).get o).Represents base) ∧
      ∀ o other,
        (((FaissEvent.run rt files events).get o).kind =
            ((FaissEvent.run rt files events).get other).kind →
          ((FaissEvent.run rt files events).get o).MergedFrom base
            ((FaissEvent.run rt files events).get other)
            ((FaissEvent.run rt files (events ++ [.call (.mergeFromOther o other)])).get o)) ∧
        ∀ p, p ≠ o → (FaissEvent.run rt files (events ++ [.call (.mergeFromOther o other)])).get p =
          (FaissEvent.run rt files events).get p := by
  have hall := FaissEvent.run_wf_aligned files base hrange
  refine ⟨fun o => (hall o).1.represents base (hall o).2, fun o other => ⟨fun hkind => ?_, ?_⟩⟩
  · rw [FaissEvent.run_merge, FaissCall.exec_mergeFromOther hkind, Heap.set_get_self]
    exact FaissIndex.mergedFrom_addBatch base (hall o).1 (hall o).2 (hall other).1 (hall other).2
  · intro p hp
    rw [FaissEvent.run_merge]
    exact FaissCall.exec_mergeFromOther_of_ne hp

/-- The points on a line are stored as they come. -/
def lineBase : StoringBase (lineRuntime Text id).faiss := (flatBase_exact lineMetric).toStoringBase

/-- A wrapper with an id that is bound twice and erased once, written and read back. -/
def reloadHistory : List (FaissEvent Nat) :=
  [.call (.construct .flat),
    .call (.addBatch 0 [(⟨[99], by decide⟩, 10), (⟨[99], by decide⟩, 20)]),
    .call (.eraseBatch 0 [⟨[99], by decide⟩]), .reload 0 .flat]

theorem wrapper_representation_reload :
    ((FaissEvent.run (lineRuntime Text id) lineFiles reloadHistory).get 1).Represents lineBase ∧
      ((FaissEvent.run (lineRuntime Text id) lineFiles reloadHistory).get 0).MergedFrom lineBase
        ((FaissEvent.run (lineRuntime Text id) lineFiles reloadHistory).get 1)
        ((FaissEvent.run (lineRuntime Text id) lineFiles
          (reloadHistory ++ [.call (.mergeFromOther 0 1)])).get 0) := by
  have hrange : ∀ part event, part ++ [event] <+: reloadHistory →
      event.InRange (FaissEvent.run (lineRuntime Text id) lineFiles part) := by
    intro part event hpart
    cases event with
    | call c => trivial
    | reload o kind =>
      obtain ⟨rfl, rfl⟩ : part = reloadHistory.take 3 ∧ o = 0 := by
        simp only [reloadHistory, List.prefix_cons_iff] at hpart
        simp [List.append_eq_cons_iff] at hpart
        simp only [reloadHistory, List.take]
        tauto
      show (_ : Nat) < _
      decide +kernel
  have hlaw := wrapper_representation lineBase lineFiles reloadHistory hrange
  exact ⟨hlaw.1 1, (hlaw.2 0 1).1 (by decide +kernel)⟩

end Vecodex
