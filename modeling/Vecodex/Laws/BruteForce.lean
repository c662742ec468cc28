import Vecodex.Laws.Documents
import Vecodex.Laws.Search
import Vecodex.Laws.Total

/-!
# Searches are exact

Over an exact base index, a search of an index returns what a brute-force search of the live rows
returns (`search_bruteForce`): as many ids as there can be, all distinct and live, whose distances
are the smallest ones in ascending order. Which of several equally distant ids it returns is left
open, as it is by the base index.

The results of the visited segments are live rows, and they dominate the live rows: a row that is
not among them has `k` results at no greater distance. Keeping the best `k` of such a set shows
the same distances as keeping the best `k` of all live rows (`Lib.topK_map_eq`).
-/

namespace Vecodex

open Lib

variable {B ID Vec Dist : Type} [LinearOrder ID] [LinearOrder Dist]

/-- The answer of a brute-force search for the `k` nearest of the live rows. -/
structure BruteForce (metric : Vec → Vec → Dist) (live : List (ID × Vec)) (q : Vec) (k : Nat)
    (res : List ID) : Prop where
  count : res.length = min k live.length
  nodup : res.Nodup
  nearest : ∃ rows : List (ID × Vec), rows.map Prod.fst = res ∧ (∀ r ∈ rows, r ∈ live) ∧
    rows.map (fun r => metric q r.2) =
      ((live.map fun r => metric q r.2).insertionSort (· ≤ ·)).take k

/-- The live rows as results. -/
def ranked (metric : Vec → Vec → Dist) (live : List (ID × Vec)) (q : Vec) : Finset (Dist ×ₗ ID) :=
  (live.map fun r => toLex (metric q r.2, r.1)).toFinset

theorem mem_ranked {metric : Vec → Vec → Dist} {live : List (ID × Vec)} {q : Vec}
    {r : Dist ×ₗ ID} :
    r ∈ ranked metric live q ↔ ∃ x v, (x, v) ∈ live ∧ toLex (metric q v, x) = r := by
  rw [ranked, List.mem_toFinset, List.mem_map]
  exact ⟨fun ⟨⟨x, v⟩, hmem, h⟩ => ⟨x, v, hmem, h⟩, fun ⟨x, v, hmem, h⟩ => ⟨(x, v), hmem, h⟩⟩

omit [LinearOrder ID] in
/-- An id determines its row. -/
theorem eq_of_nodup_ids {live : List (ID × Vec)} (hnodup : (live.map Prod.fst).Nodup) {x : ID}
    {v v' : Vec} (h : (x, v) ∈ live) (h' : (x, v') ∈ live) : v = v' :=
  (Prod.mk.inj (List.inj_on_of_nodup_map hnodup h h' rfl)).2

/-- The distances of the best `k` live rows are the `k` smallest distances. -/
theorem topK_ranked_map {metric : Vec → Vec → Dist} {live : List (ID × Vec)}
    (hnodup : (live.map Prod.fst).Nodup) (q : Vec) (k : Nat) :
    (topK k (ranked metric live q)).map (fun r => (ofLex r).1) =
      ((live.map fun r => metric q r.2).insertionSort (· ≤ ·)).take k := by
  have hrows : (live.map fun r => toLex (metric q r.2, r.1)).Nodup := by
    refine List.Nodup.of_map (fun r => (ofLex r).2) ?_
    rw [List.map_map]
    exact hnodup
  have hperm : ((ranked metric live q).sort.map fun r => (ofLex r).1).Perm
      ((live.map fun r => metric q r.2).insertionSort (· ≤ ·)) := by
    refine (((Finset.sort_perm_toList _ _).trans (List.toFinset_toList hrows)).map _).trans ?_
    rw [List.map_map]
    exact (List.perm_insertionSort (· ≤ ·) _).symm
  have hsorted : ((ranked metric live q).sort.map fun r => (ofLex r).1).Pairwise (· ≤ ·) := by
    rw [List.pairwise_map]
    exact (pairwise_sort_lt _).imp fun h => Prod.Lex.monotone_fst _ _ h.le
  rw [topK, List.map_take, hperm.eq_of_pairwise (fun _ _ _ _ => le_antisymm) hsorted
    (List.pairwise_insertionSort _ _)]

/-- Elements that all come from a list come from a list of them. -/
theorem exists_preimage {α β : Type} {f : α → β} {l : List α} {ys : List β}
    (h : ∀ y ∈ ys, ∃ x ∈ l, f x = y) : ∃ xs : List α, (∀ x ∈ xs, x ∈ l) ∧ xs.map f = ys := by
  induction ys with
  | nil => exact ⟨[], List.forall_mem_nil _, rfl⟩
  | cons y ys ih =>
    obtain ⟨x, hx, rfl⟩ := h y List.mem_cons_self
    obtain ⟨xs, hxs, rfl⟩ := ih fun y hy => h y (List.mem_cons_of_mem _ hy)
    exact ⟨x :: xs, List.forall_mem_cons.mpr ⟨hx, hxs⟩, rfl⟩

/-- A set of results between the live rows and a dominating part of them shows a brute-force
answer. -/
theorem bruteForce_of_dominates {metric : Vec → Vec → Dist} {live : List (ID × Vec)}
    (hnodup : (live.map Prod.fst).Nodup) {q : Vec} {k : Nat} {results : Finset (Dist ×ₗ ID)}
    (hsub : results ⊆ ranked metric live q)
    (hdom : Dominates (fun r => (ofLex r).1) k results (ranked metric live q)) :
    BruteForce metric live q k ((topK k results).map fun r => (ofLex r).2) := by
  have hkeys : (topK k results).map (fun r => (ofLex r).1) =
      ((live.map fun r => metric q r.2).insertionSort (· ≤ ·)).take k :=
    (topK_map_eq (fun r r' => Prod.Lex.monotone_fst r r') hsub hdom).trans
      (topK_ranked_map hnodup q k)
  have hlive : ∀ r ∈ topK k results, ∃ e ∈ live, toLex (metric q e.2, e.1) = r := by
    intro r hr
    obtain ⟨x, v, hmem, h⟩ := mem_ranked.mp (hsub (mem_of_mem_topK hr))
    exact ⟨(x, v), hmem, h⟩
  constructor
  · have hlen := congrArg List.length hkeys
    rw [List.length_map, List.length_take, List.length_insertionSort, List.length_map] at hlen
    rw [List.length_map, hlen]
  · refine List.Nodup.map_on (fun r hr r' hr' heq => ?_) (nodup_topK k results)
    obtain ⟨⟨x, v⟩, hmem, rfl⟩ := hlive r hr
    obtain ⟨⟨x', v'⟩, hmem', rfl⟩ := hlive r' hr'
    obtain rfl : x = x' := heq
    rw [eq_of_nodup_ids hnodup hmem hmem']
  · obtain ⟨rows, hrows, hmap⟩ := exists_preimage hlive
    refine ⟨rows, ?_, hrows, ?_⟩
    · rw [← hmap, List.map_map]
      rfl
    · rw [← hkeys, ← hmap, List.map_map]
      rfl

/-- The results of a search are live rows and dominate them. -/
theorem Documents.search {rt : Runtime B ID Vec Dist} {metric : Vec → Vec → Dist}
    (base : ExactBase rt.faiss metric) {live : List (ID × Vec)} {st : Index B ID}
    (hshape : Shape st.rest) (hvis : Visited st.rest)
    (halign : AlignedAll base.toStoringBase st.rest)
    (h : Documents base.toStoringBase live st.rest) (q : Vec) (k : Nat) :
    ∃ res, st.search rt q k = .ok res ∧ BruteForce metric live q k res := by
  refine ⟨_, st.search_eq rt q k, bruteForce_of_dominates h.nodup ?_ ?_⟩
  · intro r hr
    obtain ⟨p, hp, hres⟩ := Index.mem_resultSet.mp hr
    obtain ⟨pos, v, hrow, hd⟩ := Segment.row_of_results base hres
    refine mem_ranked.mpr ⟨(ofLex r).2, v, h.sound p hp _ _ ⟨pos, hrow⟩, ?_⟩
    rw [← hd]
    rfl
  · intro y hy hout
    obtain ⟨x, v, hmem, rfl⟩ := mem_ranked.mp hy
    obtain ⟨p, hp, hx⟩ := h.complete x v hmem
    have hpv := hvis.owners hp
    exact Index.resultSet_dominates base hpv (hshape.wf p) (halign p)
      (h.unshadowed p hpv).liveOnce q k hx hout

/-! ## Histories -/

/-- After every history that adds ids only while they are not live, a search returns what brute
force returns; and a history of fewer than 2^62 vectors runs to its end. -/
theorem search_bruteForce (rt : Runtime B ID Vec Dist) (metric : Vec → Vec → Dist)
    (base : ExactBase rt.faiss metric) (config : IndexConfig) (callback : Bool) (draws : Nat)
    (edits : List (Edit ID Vec)) (hfresh : AddsFresh [] edits) :
    (∀ st, (Index.create rt config callback draws).run rt (edits.map Edit.op) = .ok st →
      (∀ m < st.draws, ∀ n < st.draws, rt.rand m = rt.rand n → m = n) →
      ∀ q k, ∃ res, st.search rt q k = .ok res ∧ BruteForce metric (liveRows edits) q k res) ∧
    ((addedRows edits).length < 2 ^ 62 →
      ∃ st, (Index.create rt config callback draws : Index B ID).run rt (edits.map Edit.op) =
        .ok st) := by
  refine ⟨fun st hrun hrand q k => ?_, fun hn => Index.run_total rt config callback draws hn⟩
  obtain ⟨hshape, hvis, halign, hdoc⟩ := Documents.of_run base.toStoringBase hrun hrand hfresh
  exact hdoc.search base hshape hvis halign q k

/-- Six points added in two batches, two of them erased and one added again. -/
def sampleEdits : List (Edit Nat Nat) :=
  [.add [(1, 10), (2, 20), (3, 30)], .erase [2], .add [(4, 40), (2, 25), (5, 50)], .erase [1]]

theorem search_bruteForce_sample :
    AddsFresh [] sampleEdits ∧
      ∃ st, (Index.create (lineRuntime Nat id) (unitConfig true) false 0).run (lineRuntime Nat id)
          (sampleEdits.map Edit.op) = .ok st ∧
        ∃ res, st.search (lineRuntime Nat id) 22 2 = .ok res ∧
          BruteForce lineMetric (liveRows sampleEdits) 22 2 res := by
  have hfresh : AddsFresh [] sampleEdits := by decide
  obtain ⟨hsearch, htotal⟩ := search_bruteForce (lineRuntime Nat id) lineMetric
    (flatBase_exact lineMetric) (unitConfig true) false 0 sampleEdits hfresh
  obtain ⟨st, hst⟩ := htotal (by decide)
  exact ⟨hfresh, st, hst, hsearch st hst (fun _ _ _ _ h => h) 22 2⟩

end Vecodex
