import Mathlib.Data.Finset.Union
import Vecodex.Laws.BruteForce
import Vecodex.Laws.Sizes

/-!
# Result lists

A search keeps pairs of a distance and an id, so an id with copies in several segments can come
more than once, and the map of one segment keeps an id once however many of its `k` rows carry it,
so that an answer can be too short.

Where every visited segment has at most one live row of an id, the answers of all lengths are well
formed exactly when every live id is visited and the live rows of an id are equally far from the
query (`result_lists_iff`). A history that adds ids only while they are not live stays there.
-/

namespace Vecodex

open Lib

variable {B ID Vec Dist : Type} [LinearOrder ID] [LinearOrder Dist]

namespace Index

/-- The ids with a live vector in a segment that the levels hold or a search visits. -/
def liveIds (idx : Index B ID) : Finset ID :=
  (idx.current ++ idx.visited).toFinset.biUnion fun p => (idx.seg p).index.liveIds

theorem mem_liveIds {idx : Index B ID} {x : ID} : x ∈ idx.liveIds ↔
    ∃ p, (p ∈ idx.current ∨ p ∈ idx.visited) ∧ (idx.seg p).index.LiveId x := by
  simp only [liveIds, Finset.mem_biUnion, List.mem_toFinset, List.mem_append,
    FaissIndex.mem_liveIds]

/-- The answer names distinct ids, `k` of them or all live ones. -/
def WellFormed (rt : Runtime B ID Vec Dist) (idx : Index B ID) (q : Vec) (k : Nat) : Prop :=
  ∃ res, idx.search rt q k = .ok res ∧ res.Nodup ∧ res.length = min k idx.liveIds.card

/-- No visited segment has two live rows of one id. -/
def LiveOnce (idx : Index B ID) : Prop := ∀ p ∈ idx.visited, (idx.seg p).index.LiveOnce

/-- Every live id is live in a visited segment. -/
def AllVisited (idx : Index B ID) : Prop :=
  ∀ x ∈ idx.liveIds, ∃ p ∈ idx.visited, (idx.seg p).index.LiveId x

instance (idx : Index B ID) : Decidable idx.LiveOnce :=
  inferInstanceAs (Decidable (∀ p ∈ idx.visited, (idx.seg p).index.LiveOnce))

instance (idx : Index B ID) : Decidable idx.AllVisited :=
  inferInstanceAs (Decidable
    (∀ x ∈ idx.liveIds, ∃ p ∈ idx.visited, (idx.seg p).index.LiveId x))

section Exact

variable {rt : Runtime B ID Vec Dist} {metric : Vec → Vec → Dist}
  (base : ExactBase rt.faiss metric)

/-- The live rows of an id that a search visits are equally far from the query. -/
def Equidistant (idx : Index B ID) (q : Vec) : Prop :=
  ∀ p ∈ idx.visited, ∀ p' ∈ idx.visited, ∀ x v v',
    (idx.seg p).index.Holds base.toStoringBase x v →
    (idx.seg p').index.Holds base.toStoringBase x v' → metric q v = metric q v'

variable {idx : Index B ID} (hwf : ∀ p, (idx.seg p).index.Wf)
  (halign : ∀ p, (idx.seg p).index.Aligned base.toStoringBase)

include hwf halign in
/-- The live rows are those a merge would keep. -/
theorem equidistant_iff_survivors (q : Vec) : idx.Equidistant base q ↔
    ∀ p ∈ idx.visited, ∀ p' ∈ idx.visited, ∀ r ∈ (idx.seg p).index.survivors rt,
      ∀ r' ∈ (idx.seg p').index.survivors rt, r.1 = r'.1 → metric q r.2 = metric q r'.2 := by
  have hrow : ∀ p x v, (x, v) ∈ (idx.seg p).index.survivors rt ↔
      (idx.seg p).index.Holds base.toStoringBase x v := fun p x v =>
    FaissIndex.mem_survivors_iff_holds _ (hwf p) (halign p) x v
  constructor
  · rintro h p hp p' hp' ⟨x, v⟩ hr ⟨x', v'⟩ hr' rfl
    exact h p hp p' hp' x v v' ((hrow p x v).mp hr) ((hrow p' x v').mp hr')
  · intro h p hp p' hp' x v v' hv hv'
    exact h p hp p' hp' (x, v) ((hrow p x v).mpr hv) (x, v') ((hrow p' x v').mpr hv') rfl

/-- The ids of the results are live. -/
theorem resultSet_ids (rt : Runtime B ID Vec Dist) (idx : Index B ID) (q : Vec) (k : Nat) :
    (idx.resultSet rt q k).image (fun r => (ofLex r).2) ⊆ idx.liveIds := by
  intro x hx
  obtain ⟨r, hr, rfl⟩ := Finset.mem_image.mp hx
  obtain ⟨p, hp, hres⟩ := mem_resultSet.mp hr
  exact mem_liveIds.mpr ⟨p, .inr hp, Segment.live_of_results hres⟩

/-- Over equally distant rows an id has one result. -/
theorem Equidistant.injOn {q : Vec} (h : idx.Equidistant base q) (k : Nat) :
    Set.InjOn (fun r : Dist ×ₗ ID => (ofLex r).2) (idx.resultSet rt q k : Set (Dist ×ₗ ID)) := by
  intro r hr r' hr' hid
  obtain ⟨p, hp, hres⟩ := mem_resultSet.mp hr
  obtain ⟨p', hp', hres'⟩ := mem_resultSet.mp hr'
  obtain ⟨pos, v, hrow, hd⟩ := Segment.row_of_results base hres
  obtain ⟨pos', v', hrow', hd'⟩ := Segment.row_of_results base hres'
  simp only at hid
  rw [← hid] at hrow'
  have hdist := h p hp p' hp' _ v v' ⟨pos, hrow⟩ ⟨pos', hrow'⟩
  apply ofLex.injective
  exact Prod.ext (by rw [hd, hd', hdist]) hid

include hwf halign in
/-- Fewer than `k` results are results for all live ids. -/
theorem liveIds_subset (honce : idx.LiveOnce) (hall : idx.AllVisited) {q : Vec} {k : Nat}
    (hfew : (idx.resultSet rt q k).card < k) :
    idx.liveIds ⊆ (idx.resultSet rt q k).image fun r => (ofLex r).2 := by
  intro x hx
  obtain ⟨p, hp, hlive⟩ := hall x hx
  obtain ⟨v, hv⟩ := hlive.exists_holds base.toStoringBase (hwf p) (halign p)
  refine Finset.mem_image.mpr ⟨toLex (metric q v, x), ?_, rfl⟩
  by_contra hout
  have hdom := resultSet_dominates base hp (hwf p) (halign p) (honce p hp) q k hv hout
  exact absurd (hdom.trans (Finset.card_filter_le _ _)) (Nat.not_le.mpr hfew)

include hwf halign in
theorem wellFormed_of_equidistant (honce : idx.LiveOnce) (hall : idx.AllVisited) {q : Vec}
    (heq : idx.Equidistant base q) (k : Nat) : idx.WellFormed rt q k := by
  have hinj := heq.injOn base k
  refine ⟨_, idx.search_eq rt q k, ?_, ?_⟩
  · refine (nodup_topK k _).map_on fun r hr r' hr' hid => ?_
    exact hinj (mem_of_mem_topK hr) (mem_of_mem_topK hr') hid
  · have hcard := Finset.card_image_of_injOn hinj
    have hle := Finset.card_le_card (resultSet_ids rt idx q k)
    rw [List.length_map, length_topK]
    by_cases hfew : (idx.resultSet rt q k).card < k
    · have hge := Finset.card_le_card (liveIds_subset base hwf halign honce hall hfew)
      omega
    · omega

include hwf halign in
/-- Asking for more than there are positions returns every visited live row. -/
theorem mem_resultSet_of_holds (honce : idx.LiveOnce) {q : Vec} {k : Nat}
    (hk : idx.positions < k) {p : Nat} (hp : p ∈ idx.visited) {x : ID} {v : Vec}
    (hv : (idx.seg p).index.Holds base.toStoringBase x v) :
    toLex (metric q v, x) ∈ idx.resultSet rt q k := by
  by_contra hout
  have hdom := resultSet_dominates base hp (hwf p) (halign p) (honce p hp) q k hv hout
  have hcard := card_resultSet_le base hwf q k
  exact absurd (hdom.trans (Finset.card_filter_le _ _)) (by omega)

include base hwf in
/-- A well-formed answer to a search for more than there are positions names every live id, and
comes from one result for each. -/
theorem WellFormed.results {q : Vec} {k : Nat} (h : idx.WellFormed rt q k)
    (hk : idx.positions < k) :
    Set.InjOn (fun r : Dist ×ₗ ID => (ofLex r).2) (idx.resultSet rt q k : Set (Dist ×ₗ ID)) ∧
      (idx.resultSet rt q k).image (fun r => (ofLex r).2) = idx.liveIds := by
  obtain ⟨res, hres, hnodup, hlen⟩ := h
  have hcard := card_resultSet_le base hwf q k
  rw [search_eq] at hres
  cases hres
  have hmem : ∀ r, r ∈ topK k (idx.resultSet rt q k) ↔ r ∈ idx.resultSet rt q k := fun r =>
    mem_topK_of_card_le (by omega)
  have hinj : Set.InjOn (fun r : Dist ×ₗ ID => (ofLex r).2)
      (idx.resultSet rt q k : Set (Dist ×ₗ ID)) := by
    intro r hr r' hr' hid
    exact List.inj_on_of_nodup_map hnodup ((hmem r).mpr hr) ((hmem r').mpr hr') hid
  refine ⟨hinj, Finset.eq_of_subset_of_card_le (resultSet_ids rt idx q k) ?_⟩
  rw [Finset.card_image_of_injOn hinj]
  rw [List.length_map, length_topK] at hlen
  omega

include hwf halign in
theorem wellFormed_iff (honce : idx.LiveOnce) (q : Vec) :
    (∀ k, 1 ≤ k → idx.WellFormed rt q k) ↔ idx.AllVisited ∧ idx.Equidistant base q := by
  constructor
  · intro h
    obtain ⟨hinj, hids⟩ := (h (idx.positions + 1) (Nat.le_add_left _ _)).results base hwf
      (Nat.lt_succ_self _)
    constructor
    · intro x hx
      rw [← hids] at hx
      obtain ⟨r, hr, rfl⟩ := Finset.mem_image.mp hx
      obtain ⟨p, hp, hres⟩ := mem_resultSet.mp hr
      exact ⟨p, hp, Segment.live_of_results hres⟩
    · intro p hp p' hp' x v v' hv hv'
      have hr := mem_resultSet_of_holds base hwf halign honce (q := q) (Nat.lt_succ_self _) hp hv
      have hr' := mem_resultSet_of_holds base hwf halign honce (q := q) (Nat.lt_succ_self _) hp' hv'
      have hsame := toLex.injective (hinj hr hr' rfl)
      exact (Prod.mk.inj hsame).1
  · rintro ⟨hall, heq⟩ k -
    exact wellFormed_of_equidistant base hwf halign honce hall heq k

end Exact

end Index

/-! ## Histories -/

section Histories

variable {rt : Runtime B ID Vec Dist} {metric : Vec → Vec → Dist}
  (base : ExactBase rt.faiss metric)

/-- The ids of the live rows are the live ids. -/
theorem Documents.liveIds_eq {live : List (ID × Vec)} {st : Index B ID} (hshape : Shape st.rest)
    (hvis : Visited st.rest) (halign : AlignedAll base.toStoringBase st.rest)
    (h : Documents base.toStoringBase live st.rest) :
    st.liveIds = (live.map Prod.fst).toFinset := by
  ext x
  rw [Index.mem_liveIds, List.mem_toFinset, List.mem_map]
  constructor
  · rintro ⟨p, hp, hlive⟩
    have hpv : p ∈ st.visited := by
      cases hp with
      | inl hcurrent => exact Index.mem_visited.mpr (.inl (hvis p hcurrent))
      | inr hvisited => exact hvisited
    obtain ⟨v, hv⟩ := hlive.exists_holds base.toStoringBase (hshape.wf p) (halign p)
    exact ⟨(x, v), h.sound p hpv x v hv, rfl⟩
  · rintro ⟨⟨x, v⟩, hmem, rfl⟩
    obtain ⟨p, hp, pos, hrow⟩ := h.complete x v hmem
    exact ⟨p, .inr (hvis.owners hp), pos, hrow.1⟩

/-- Live rows with distinct ids are searched, each once. -/
theorem Documents.wellFormed {live : List (ID × Vec)} {st : Index B ID} (hshape : Shape st.rest)
    (hvis : Visited st.rest) (halign : AlignedAll base.toStoringBase st.rest)
    (h : Documents base.toStoringBase live st.rest) (q : Vec) (k : Nat) :
    st.WellFormed rt q k := by
  have honce : st.LiveOnce := fun p hp => (h.unshadowed p hp).liveOnce
  have hall : st.AllVisited := by
    intro x hx
    rw [h.liveIds_eq base hshape hvis halign, List.mem_toFinset, List.mem_map] at hx
    obtain ⟨⟨x, v⟩, hmem, rfl⟩ := hx
    obtain ⟨p, hp, pos, hrow⟩ := h.complete x v hmem
    exact ⟨p, hvis.owners hp, pos, hrow.1⟩
  have heq : st.Equidistant base q := by
    intro p hp p' hp' x v v' hv hv'
    rw [eq_of_nodup_ids h.nodup (h.sound p hp x v hv) (h.sound p' hp' x v' hv')]
  exact Index.wellFormed_of_equidistant base hshape.wf halign honce hall heq k

end Histories

/-- After every history in whose state no visited segment has two live rows of one id, all answers
are well formed if and only if every live id is visited and the live rows of an id are equally far
from the query. This is so after every history that adds ids only while they are not live. -/
theorem result_lists_iff (rt : Runtime B ID Vec Dist) (metric : Vec → Vec → Dist)
    (base : ExactBase rt.faiss metric) (config : IndexConfig) (callback : Bool) (draws : Nat)
    (edits : List (Edit ID Vec)) :
    (∀ st, (Index.create rt config callback draws).run rt (edits.map Edit.op) = .ok st →
      (st.LiveOnce → ∀ q, (∀ k, 1 ≤ k → st.WellFormed rt q k) ↔
        st.AllVisited ∧ st.Equidistant base q) ∧
      (AddsFresh [] edits → (∀ m < st.draws, ∀ n < st.draws, rt.rand m = rt.rand n → m = n) →
        st.liveIds = ((liveRows edits).map Prod.fst).toFinset ∧
        ∀ q k, 1 ≤ k → st.WellFormed rt q k)) ∧
    ((addedRows edits).length < 2 ^ 62 →
      ∃ st, (Index.create rt config callback draws : Index B ID).run rt (edits.map Edit.op) =
        .ok st) := by
  refine ⟨fun st hrun => ⟨fun honce q => ?_, fun hfresh hrand => ?_⟩,
    fun hn => Index.run_total rt config callback draws hn⟩
  · have hshape := (Shape.create rt config callback draws).of_runs (Index.run_runs hrun)
    have halign := AlignedAll.of_run base.toStoringBase hrun
    exact Index.wellFormed_iff base hshape.wf halign honce q
  · obtain ⟨hshape, hvis, halign, hdoc⟩ := Documents.of_run base.toStoringBase hrun hrand hfresh
    exact ⟨hdoc.liveIds_eq base hshape hvis halign,
      fun q k _ => hdoc.wellFormed base hshape hvis halign q k⟩

/-- An id that is added again with its vector, before another one. -/
def readdedEdits : List (Edit Nat Nat) := [.add [(1, 10)], .add [(1, 10), (2, 20)]]

/-- The copies of the id are in two segments, and it still comes once. -/
theorem result_lists_iff_readded :
    ¬ AddsFresh [] readdedEdits ∧
      ∃ st, (Index.create (lineRuntime Nat id) (unitConfig false) false 0).run (lineRuntime Nat id)
          (readdedEdits.map Edit.op) = .ok st ∧
        ∀ k, 1 ≤ k → st.WellFormed (lineRuntime Nat id) 10 k := by
  obtain ⟨hsearch, -⟩ := result_lists_iff (lineRuntime Nat id) lineMetric
    (flatBase_exact lineMetric) (unitConfig false) false 0 readdedEdits
  obtain ⟨st, hrun, honce, hall, hrows⟩ : ∃ st, (Index.create (lineRuntime Nat id)
      (unitConfig false) false 0).run (lineRuntime Nat id) (readdedEdits.map Edit.op) = .ok st ∧
        st.LiveOnce ∧ st.AllVisited ∧ ∀ p ∈ st.visited, ∀ p' ∈ st.visited,
          ∀ r ∈ (st.seg p).index.survivors (lineRuntime Nat id),
          ∀ r' ∈ (st.seg p').index.survivors (lineRuntime Nat id),
            r.1 = r'.1 → lineMetric 10 r.2 = lineMetric 10 r'.2 := exists_ok (by decide +kernel)
  have hshape := (Shape.create (lineRuntime Nat id) (unitConfig false) false 0).of_runs
    (Index.run_runs hrun)
  have halign := AlignedAll.of_run (flatBase_exact lineMetric).toStoringBase hrun
  refine ⟨by decide, st, hrun, ((hsearch st hrun).1 honce 10).mpr ⟨hall, ?_⟩⟩
  exact (Index.equidistant_iff_survivors _ hshape.wf halign 10).mpr hrows

/-- Segments of three vectors. -/
def tripleConfig : IndexConfig where
  segmentThreshold := 3
  threshold_pos := by decide
  threshold_int := by decide
  enableMerge := true
  kind := .flat

/-- Copies of an id in two segments are both returned. Copies in one segment take the place of
another id. -/
theorem result_lists_malformed :
    (∃ st, (Index.create (lineRuntime Nat id) (unitConfig false) false 0).run (lineRuntime Nat id)
        [.add [(1, 10)], .add [(1, 20)]] = .ok st ∧
      st.search (lineRuntime Nat id) 10 2 = .ok [1, 1] ∧ st.liveIds = {1}) ∧
    ∃ st, (Index.create (lineRuntime Nat id) tripleConfig false 0).run (lineRuntime Nat id)
        [.add [(1, 10), (1, 11), (2, 20)]] = .ok st ∧
      st.search (lineRuntime Nat id) 10 2 = .ok [1] ∧ st.liveIds = {1, 2} :=
  ⟨exists_ok (by decide +kernel), exists_ok (by decide +kernel)⟩

end Vecodex
