import Mathlib.Algebra.Order.BigOperators.Group.List
import Mathlib.Algebra.Order.Ring.Nat
import Vecodex.Laws.SegmentSearch
import Vecodex.Laws.Shape

/-!
# The search of an index

A search keeps the best `k` of the results of all visited segments in an ordered set. The order
in which segments and results come plays no part: `search_eq` says that the answer is the best
`k` of the set of all results.
-/

namespace Vecodex

open Lib

variable {B ID Vec Dist : Type} [LinearOrder ID] [LinearOrder Dist]

namespace Index

/-- The results of all visited segments. -/
def resultSet (rt : Runtime B ID Vec Dist) (idx : Index B ID) (q : Vec) (k : Nat) :
    Finset (Dist ×ₗ ID) :=
  (idx.visited.flatMap fun p => (idx.seg p).results rt q k).toFinset

theorem mem_resultSet {rt : Runtime B ID Vec Dist} {idx : Index B ID} {q : Vec} {k : Nat}
    {r : Dist ×ₗ ID} :
    r ∈ idx.resultSet rt q k ↔ ∃ p ∈ idx.visited, r ∈ (idx.seg p).results rt q k := by
  rw [resultSet, List.mem_toFinset, List.mem_flatMap]

/-- One segment's answers join the set. -/
theorem collect_topK (rt : Runtime B ID Vec Dist) (idx : Index B ID) (q : Vec) (k : Nat)
    (s : Finset (Dist ×ₗ ID)) (p : Nat) :
    idx.collect rt q k (topK k s) p =
      .ok (topK k (s ∪ ((idx.seg p).results rt q k).toFinset)) := by
  obtain ⟨ans, -, hq⟩ := (idx.seg p).searchQuery_total rt q k
  unfold collect Segment.results
  rw [hq, ok_bind, ← foldl_keep, List.foldl_map]
  rfl

theorem foldlM_collect (rt : Runtime B ID Vec Dist) (idx : Index B ID) (q : Vec) (k : Nat)
    (s : Finset (Dist ×ₗ ID)) (ps : List Nat) :
    ps.foldlM (idx.collect rt q k) (topK k s) =
      .ok (topK k (s ∪ (ps.flatMap fun p => (idx.seg p).results rt q k).toFinset)) := by
  induction ps generalizing s with
  | nil => simp [pure, Except.pure]
  | cons p ps ih =>
    rw [List.foldlM_cons, collect_topK, ok_bind, ih, List.flatMap_cons, List.toFinset_append,
      Finset.union_assoc]

/-- A search answers with the best `k` of all results. -/
theorem search_eq (rt : Runtime B ID Vec Dist) (idx : Index B ID) (q : Vec) (k : Nat) :
    idx.search rt q k = .ok ((topK k (idx.resultSet rt q k)).map fun r => (ofLex r).2) := by
  have hall := foldlM_collect rt idx q k ∅ idx.segments
  rw [topK_empty, Finset.empty_union] at hall
  unfold search
  rw [hall, ok_bind, collect_topK, ok_bind]
  unfold resultSet visited
  rw [List.flatMap_append, List.toFinset_append, List.flatMap_singleton]
  rfl

/-- A returned id is live in a visited segment. -/
theorem live_of_search {rt : Runtime B ID Vec Dist} {idx : Index B ID} {q : Vec} {k : Nat}
    {res : List ID} (h : idx.search rt q k = .ok res) {x : ID} (hx : x ∈ res) :
    ∃ p ∈ idx.visited, (idx.seg p).index.LiveId x := by
  rw [search_eq] at h
  cases h
  obtain ⟨r, hr, rfl⟩ := List.mem_map.mp hx
  obtain ⟨p, hp, hres⟩ := mem_resultSet.mp (mem_of_mem_topK hr)
  exact ⟨p, hp, Segment.live_of_results hres⟩

/-- A live row of a visited segment in which every id is live once is among the results, or `k`
results are at no greater distance. -/
theorem resultSet_dominates {rt : Runtime B ID Vec Dist} {metric : Vec → Vec → Dist}
    (base : ExactBase rt.faiss metric) {idx : Index B ID} {p : Nat} (hp : p ∈ idx.visited)
    (hwf : (idx.seg p).index.Wf) (halign : (idx.seg p).index.Aligned base.toStoringBase)
    (honce : (idx.seg p).index.LiveOnce) (q : Vec) (k : Nat) {x : ID} {v : Vec}
    (hx : (idx.seg p).index.Holds base.toStoringBase x v)
    (hout : toLex (metric q v, x) ∉ idx.resultSet rt q k) :
    k ≤ ((idx.resultSet rt q k).filter fun r => (ofLex r).1 ≤ metric q v).card := by
  have hres : ∀ r ∈ (idx.seg p).results rt q k, r ∈ idx.resultSet rt q k := fun r hr =>
    mem_resultSet.mpr ⟨p, hp, hr⟩
  obtain ⟨pos, hrow⟩ := hx
  rcases Segment.results_dominate base hwf halign honce q k hrow with hin | ⟨near, hnear, hlen, hle⟩
  · exact absurd (hres _ hin) hout
  · have hcard : near.toFinset.card = k := (List.toFinset_card_of_nodup hnear).trans hlen
    refine hcard.symm.le.trans (Finset.card_le_card fun r hr => ?_)
    obtain ⟨hin, hd⟩ := hle r (List.mem_toFinset.mp hr)
    exact Finset.mem_filter.mpr ⟨hres r hin, hd⟩

/-- The number of positions of the visited segments. -/
def positions (idx : Index B ID) : Nat :=
  (idx.visited.map fun p => (idx.seg p).index.nextId).sum

/-- There are no more results than positions, however many are asked for. -/
theorem card_resultSet_le {rt : Runtime B ID Vec Dist} {metric : Vec → Vec → Dist}
    (base : ExactBase rt.faiss metric) {idx : Index B ID} (hwf : ∀ p, (idx.seg p).index.Wf)
    (q : Vec) (k : Nat) : (idx.resultSet rt q k).card ≤ idx.positions := by
  refine (List.toFinset_card_le _).trans ?_
  rw [List.length_flatMap]
  exact List.sum_le_sum fun p _ => Segment.length_results_le base (hwf p) q k

/-- Over an exact base index, a search for enough results returns every live id of a visited
segment. -/
theorem search_finds {rt : Runtime B ID Vec Dist} {metric : Vec → Vec → Dist}
    (base : ExactBase rt.faiss metric) {idx : Index B ID} (hwf : ∀ p, (idx.seg p).index.Wf)
    (halign : ∀ p, (idx.seg p).index.Aligned base.toStoringBase) {p : Nat}
    (hp : p ∈ idx.visited) {x : ID} (hx : (idx.seg p).index.LiveId x) (q : Vec) :
    ∃ k res, idx.search rt q k = .ok res ∧ x ∈ res := by
  refine ⟨idx.positions, _, idx.search_eq rt q _, ?_⟩
  have hcard := card_resultSet_le base hwf q idx.positions
  have hmem : (idx.seg p).index.nextId ∈ idx.visited.map fun p => (idx.seg p).index.nextId :=
    List.mem_map_of_mem hp
  obtain ⟨d, hd⟩ := Segment.results_all base (hwf p) (halign p) (q := q)
    (List.single_le_sum (fun _ _ => Nat.zero_le _) _ hmem) hx
  have hres : toLex (d, x) ∈ idx.resultSet rt q idx.positions := mem_resultSet.mpr ⟨p, hp, hd⟩
  exact List.mem_map.mpr ⟨toLex (d, x), (mem_topK_of_card_le hcard).mpr hres, rfl⟩

end Index

end Vecodex
