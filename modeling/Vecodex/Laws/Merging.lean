import Vecodex.Laws.Pool
import Vecodex.Laws.Search
import Vecodex.Laws.Total

/-!
# Merging and searches

Two indexes that differ only in whether they merge go through the same history. While the joins
of the merging one are apart, both refine the same pool (`Tracked.run`). Over an exact base index
a search then answers from the pool alone, when distances tell the stored vectors apart
(`Pooled.search_eq`), so both give the same answer (`merging_invisible`).

Joins that are not apart do show: an id that is live in both segments is found twice before the
join and once after it (`merging_hides_copy`).
-/

namespace Vecodex

open Lib

/-! ## Histories -/

section Histories

variable {B ID Vec Dist : Type} [DecidableEq ID] {rt : Runtime B ID Vec Dist}
  {base : StoringBase rt.faiss} {config : IndexConfig}

/-- The loop of `add` fills and seals as the pool does. -/
theorem Pooled.addLoop {fuel : Nat} {idx idx' : Index B ID} {inserted inserted' : List Nat}
    {rows : List (ID × Vec)} {pool : Pool B ID} (h : Pooled base config pool idx)
    (hshape : Shape ⟨idx, inserted, 0, [], []⟩)
    (hloop : idx.addLoop rt fuel inserted rows = .ok (idx', inserted')) :
    Pooled base config (pool.add rt config fuel rows) idx' := by
  induction fuel generalizing idx inserted rows pool with
  | zero =>
    cases rows with
    | nil =>
      cases hloop
      exact h
    | cons row rows => cases hloop
  | succ fuel ih =>
    cases rows with
    | nil =>
      cases hloop
      exact h
    | cons row rows =>
      obtain ⟨batch, filled, hbatch, -, hfilled, hround⟩ := Index.addLoop_round hloop
      have hsize : batch = min (row :: rows).length
          (sizeT (config.segmentThreshold - pool.last.size)) := by
        rw [hbatch, Index.batchSize, h.config, Segment.size, h.last]
      have hpooled : Pooled base config
          { pool with last := pool.last.addBatch rt ((row :: rows).take batch) } filled :=
        hfilled ▸ Pooled.append (w := ⟨idx, inserted, 0, [], []⟩) h hshape _
      have hshape' : Shape ⟨filled, inserted, 0, [], []⟩ := hfilled ▸ hshape.append _
      rw [Pool.add, ← hsize]
      unfold Pool.settle
      dsimp only
      rw [Segment.size, hpooled.last, hpooled.config] at hround
      rcases hround with ⟨hfull, st, hst, hrest⟩ | ⟨hopen, hrest⟩
      · rw [if_pos hfull]
        exact ih (Pooled.sealLast (w := ⟨filled, inserted, 0, [], []⟩) hpooled hshape' hst)
          (hshape'.sealLast ⟨rfl, rfl⟩ hst) hrest
      · rw [if_neg hopen]
        exact ih hpooled hshape' hrest

theorem Pooled.fill {idx idx' : Index B ID} {rows : List (ID × Vec)} {pool : Pool B ID}
    (h : Pooled base config pool idx) (hshape : Shape idx.rest)
    (hfill : idx.fill rt rows = .ok idx') :
    Pooled base config (pool.add rt config rows.length rows) idx' := by
  obtain ⟨⟨filled, inserted⟩, hloop, hnotify⟩ := bind_eq_ok.mp hfill
  have hfilled := h.addLoop hshape hloop
  cases hnotify
  show Pooled base config _ (if !inserted.isEmpty then filled.notify [] inserted else filled)
  split
  · obtain ⟨calls, hcalls⟩ := filled.notify_eq [] inserted
    rw [hcalls]
    exact hfilled.transfer rfl rfl (fun _ => rfl) (fun _ hp => hp) rfl
  · exact hfilled

/-- An index with the pool it refines, after a history. -/
structure Tracked (base : StoringBase rt.faiss) (config : IndexConfig)
    (edits : List (Edit ID Vec)) (pool : Pool B ID) (w : Work B ID) : Prop where
  sound : Sound rt ((edits.map Edit.op).flatMap Op.changes) w
  aligned : AlignedAll base w
  stores : ∀ f ∈ pool.all, Pool.Stores base (addedRows edits) f
  pooled : Pooled base config pool w.index

namespace Tracked

variable {edits : List (Edit ID Vec)} {pool : Pool B ID}

theorem create (base : StoringBase rt.faiss) (config : IndexConfig) (callback : Bool)
    (draws : Nat) :
    Tracked base config [] (Pool.create rt config.kind)
      (Index.create rt config callback draws : Index B ID).rest where
  sound := Sound.create rt config callback draws
  aligned := AlignedAll.create base config callback draws
  stores f hf := by
    rw [List.mem_singleton.mp hf]
    exact Pool.stores_create base [] _
  pooled := Pooled.create base config callback draws

theorem merge {idx idx' : Index B ID} {amount : Nat} (h : Tracked base config edits pool idx.rest)
    (hmerge : idx.merge rt amount = .ok idx')
    (hrand : ∀ m < idx'.draws, ∀ n < idx'.draws, rt.rand m = rt.rand n → m = n)
    (hapart : ApartJoins idx'.trace) : Tracked base config edits pool idx'.rest := by
  have hd : DistinctIds rt ((edits.map Edit.op).flatMap Op.changes : List (Change B ID Vec))
    idx'.rest.index.draws := distinctIds_of_edits hrand edits
  have hsteps := Index.merge_steps hmerge
  replace hapart : ApartJoins idx'.rest.index.trace := hapart
  clear hmerge hrand
  generalize idx'.rest = w at hsteps hd hapart ⊢
  induction hsteps with
  | refl => exact h
  | @tail u v _ hstep ih =>
    have hs : Step rt [] u v := .merge hstep
    rw [← List.append_nil (List.flatMap _ _)] at hd
    have hu := ih (hd.mono hs.draws_le) (hapart.mono hs.trace_prefix)
    have hsound := hu.sound.step hd hs
    rw [List.append_nil] at hsound
    exact ⟨hsound, hu.aligned.step hs (fun _ hmem => by cases hmem), hu.stores,
      hu.pooled.mergeStep hu.sound.shape hu.sound.visited hu.aligned hstep hapart⟩

/-- What a call does to an index and to its pool keeps them together. -/
theorem snoc {idx idx' : Index B ID} {e : Edit ID Vec} (h : Tracked base config edits pool idx.rest)
    (hruns : Runs (Step rt) e.op.changes idx.rest idx'.rest)
    (hrand : ∀ m < idx'.draws, ∀ n < idx'.draws, rt.rand m = rt.rand n → m = n)
    (hpooled : Pooled base config (pool.apply rt config e) idx') :
    Tracked base config (edits ++ [e]) (pool.apply rt config e) idx'.rest := by
  have hchanges : (((edits ++ [e]).map Edit.op).flatMap Op.changes : List (Change B ID Vec)) =
      (edits.map Edit.op).flatMap Op.changes ++ e.op.changes := by
    simp
  constructor
  · rw [hchanges]
    refine h.sound.of_runs hruns ?_
    rw [← hchanges]
    exact distinctIds_of_edits hrand _
  · exact h.aligned.of_runs hruns fun segment hmem => absurd hmem (not_push_of_edit e segment)
  · rw [show addedRows (edits ++ [e]) = addedRows edits ++ addedRows [e] from
      List.flatMap_append]
    exact Pool.stores_apply config h.stores e
  · exact hpooled

/-- One call. -/
theorem exec {idx idx' : Index B ID} {e : Edit ID Vec} (h : Tracked base config edits pool idx.rest)
    (hexec : idx.exec rt e.op = .ok idx')
    (hrand : ∀ m < idx'.draws, ∀ n < idx'.draws, rt.rand m = rt.rand n → m = n)
    (hapart : ApartJoins idx'.trace) :
    Tracked base config (edits ++ [e]) (pool.apply rt config e) idx'.rest := by
  cases e with
  | add rows =>
    obtain ⟨filled, hfill, hmerge⟩ := bind_eq_ok.mp hexec
    have hpooled := h.pooled.fill h.sound.shape hfill
    split at hmerge
    · have hle := draws_le_of_runs (Index.merge_runs hmerge)
      have hfilled := h.snoc (e := .add rows) (Index.fill_runs hfill)
        (fun m hm n hn => hrand m (Nat.lt_of_lt_of_le hm hle) n (Nat.lt_of_lt_of_le hn hle)) hpooled
      exact hfilled.merge hmerge hrand hapart
    · cases hmerge
      exact h.snoc (e := .add rows) (Index.fill_runs hfill) hrand hpooled
  | erase ids =>
    refine h.snoc (Index.exec_runs hexec) hrand ?_
    cases hexec
    exact h.pooled.erase h.sound.shape h.sound.visited
      (fun f hf => (h.stores f (Pool.mem_all.mpr (Or.inl hf))).wf) ids

/-- A history, from a state reached before. -/
theorem run_from {more : List (Edit ID Vec)} {idx st : Index B ID}
    (h : Tracked base config edits pool idx.rest)
    (hrun : idx.run rt (more.map Edit.op) = .ok st)
    (hrand : ∀ m < st.draws, ∀ n < st.draws, rt.rand m = rt.rand n → m = n)
    (hapart : ApartJoins st.trace) :
    Tracked base config (edits ++ more) (more.foldl (Pool.apply rt config) pool) st.rest := by
  induction more generalizing edits pool idx with
  | nil =>
    cases hrun
    rwa [List.append_nil]
  | cons e more ih =>
    rw [List.map_cons, Index.run, List.foldlM_cons] at hrun
    obtain ⟨next, hnext, hrest⟩ := bind_eq_ok.mp hrun
    have hruns := Index.run_runs hrest
    have hle := draws_le_of_runs hruns
    have hnext := h.exec hnext
      (fun m hm n hn => hrand m (Nat.lt_of_lt_of_le hm hle) n (Nat.lt_of_lt_of_le hn hle))
      (hapart.mono (trace_prefix_of_runs hruns))
    rw [show edits ++ e :: more = edits ++ [e] ++ more by simp]
    exact ih hnext hrest

/-- While its joins are apart, an index refines the pool. -/
theorem run (base : StoringBase rt.faiss) {callback : Bool} {draws : Nat} {st : Index B ID}
    (hrun : (Index.create rt config callback draws).run rt (edits.map Edit.op) = .ok st)
    (hrand : ∀ m < st.draws, ∀ n < st.draws, rt.rand m = rt.rand n → m = n)
    (hapart : ApartJoins st.trace) :
    Tracked base config edits (Pool.run rt config edits) st.rest :=
  (create base config callback draws).run_from hrun hrand hapart

end Tracked

/-- An index that does not merge leaves no trace. -/
theorem unmerged_trace {edits : List (Edit ID Vec)} {idx st : Index B ID}
    (hrun : idx.run rt (edits.map Edit.op) = .ok st) (hconfig : idx.config.enableMerge = false) :
    st.trace = idx.trace := by
  induction edits generalizing idx with
  | nil =>
    cases hrun
    rfl
  | cons e edits ih =>
    rw [List.map_cons, Index.run, List.foldlM_cons] at hrun
    obtain ⟨next, hnext, hrest⟩ := bind_eq_ok.mp hrun
    have hsame : next.trace = idx.trace ∧ next.config = idx.config := by
      cases e with
      | add rows =>
        obtain ⟨filled, hfill, hmerge⟩ := bind_eq_ok.mp hnext
        rw [Index.fill_config hfill, hconfig] at hmerge
        cases hmerge
        exact ⟨Index.fill_trace hfill, Index.fill_config hfill⟩
      | erase ids =>
        cases hnext
        exact ⟨rfl, rfl⟩
    rw [ih hrest (hsame.2 ▸ hconfig), hsame.1]

end Histories

/-! ## Searches -/

section Searches

variable {B ID Vec Dist : Type} [LinearOrder ID] [LinearOrder Dist]

/-- What a search of the pool chooses from: the live rows of the unshadowed wrappers, and the
results of the shadowed ones. -/
def Pool.candidates (rt : Runtime B ID Vec Dist) (metric : Vec → Vec → Dist) (pool : Pool B ID)
    (q : Vec) (k : Nat) : Finset (Dist ×ₗ ID) :=
  (pool.all.flatMap fun f =>
    if f.Unshadowed then (f.survivors rt).map fun r => toLex (metric q r.2, r.1)
    else Segment.results rt ⟨0, f⟩ q k).toFinset

variable {rt : Runtime B ID Vec Dist} {metric : Vec → Vec → Dist}

theorem Pool.mem_candidates (base : ExactBase rt.faiss metric) {rows : List (ID × Vec)}
    {pool : Pool B ID} (hstores : ∀ f ∈ pool.all, Pool.Stores base.toStoringBase rows f) {q : Vec}
    {k : Nat} {r : Dist ×ₗ ID} :
    r ∈ pool.candidates rt metric q k ↔ ∃ f ∈ pool.all,
      f.Unshadowed ∧ (∃ x v, f.Holds base.toStoringBase x v ∧ toLex (metric q v, x) = r) ∨
      ¬ f.Unshadowed ∧ r ∈ Segment.results rt ⟨0, f⟩ q k := by
  unfold Pool.candidates
  rw [List.mem_toFinset, List.mem_flatMap]
  refine exists_congr fun f => and_congr_right fun hf => ?_
  have hs := hstores f hf
  by_cases hu : f.Unshadowed
  · rw [if_pos hu, List.mem_map]
    simp only [hu, not_true, false_and, or_false, true_and]
    constructor
    · rintro ⟨⟨x, v⟩, hmem, hr⟩
      exact ⟨x, v, (FaissIndex.mem_survivors_iff_holds _ hs.wf hs.aligned x v).mp hmem, hr⟩
    · rintro ⟨x, v, hx, hr⟩
      exact ⟨(x, v), (FaissIndex.mem_survivors_iff_holds _ hs.wf hs.aligned x v).mpr hx, hr⟩
  · simp [hu]

/-- The results of a segment depend on its wrapper alone. -/
theorem Segment.results_congr {s : Segment B ID} {f : FaissIndex B ID} (h : s.index = f) (q : Vec)
    (k : Nat) : s.results rt q k = Segment.results rt ⟨0, f⟩ q k := by
  subst h
  rfl

/-- Candidates are stored rows under their distances. -/
theorem Pool.row_of_candidates (base : ExactBase rt.faiss metric) {rows : List (ID × Vec)}
    {pool : Pool B ID} (hstores : ∀ f ∈ pool.all, Pool.Stores base.toStoringBase rows f) {q : Vec}
    {k : Nat} {r : Dist ×ₗ ID} (hr : r ∈ pool.candidates rt metric q k) :
    ∃ x v, (x, v) ∈ rows ∧ toLex (metric q v, x) = r := by
  obtain ⟨f, hf, ⟨-, x, v, hx, hd⟩ | ⟨-, hres⟩⟩ := (Pool.mem_candidates base hstores).mp hr
  · exact ⟨x, v, (hstores f hf).held x v hx, hd⟩
  · obtain ⟨pos, v, hrow, hd⟩ :=
      Segment.row_of_results (s := ⟨0, f⟩) base hres
    refine ⟨(ofLex r).2, v, (hstores f hf).held _ v ⟨pos, hrow⟩, ?_⟩
    rw [← hd]
    rfl

/-- A search answers from the pool when distances tell the stored rows apart. -/
theorem Tracked.search_eq (base : ExactBase rt.faiss metric) {config : IndexConfig}
    {edits : List (Edit ID Vec)} {pool : Pool B ID} {idx : Index B ID}
    (h : Tracked base.toStoringBase config edits pool idx.rest) {q : Vec}
    (hdist : ((addedRows edits).map fun r => metric q r.2).Nodup) (k : Nat) :
    idx.search rt q k =
      .ok ((topK k (pool.candidates rt metric q k)).map fun r => (ofLex r).2) := by
  have hkey : Monotone fun r : Dist ×ₗ ID => (ofLex r).1 := fun r r' =>
    Prod.Lex.monotone_fst r r'
  rw [idx.search_eq rt q k]
  congr 2
  refine topK_eq_of_injOn hkey ?_ ?_ ?_
  · intro r hr
    obtain ⟨p, hp, hres⟩ := Index.mem_resultSet.mp hr
    obtain ⟨hrows, hshadowed⟩ := h.pooled.shows hp
    rw [Pool.mem_candidates base h.stores]
    by_cases hu : (idx.seg p).index.Unshadowed
    · obtain ⟨pos, v, hrow, hd⟩ := Segment.row_of_results base hres
      obtain ⟨f, hf, hfu, hheld⟩ := hrows hu _ v ⟨pos, hrow⟩
      refine ⟨f, hf, Or.inl ⟨hfu, _, v, hheld, ?_⟩⟩
      rw [← hd]
      rfl
    · refine ⟨_, hshadowed hu, Or.inr ⟨hu, ?_⟩⟩
      rwa [← Segment.results_congr rfl]
  · intro r hr hout
    obtain ⟨f, hf, hcase⟩ := (Pool.mem_candidates base h.stores).mp hr
    obtain ⟨hrows, hshadowed⟩ := h.pooled.finds h.sound.visited hf
    rcases hcase with ⟨hu, x, v, hx, rfl⟩ | ⟨hu, hres⟩
    · obtain ⟨p, hp, hpu, hheld⟩ := hrows hu x v hx
      exact Index.resultSet_dominates base hp (h.sound.shape.wf p) (h.aligned p) hpu.liveOnce q
        k hheld hout
    · obtain ⟨p, hp, hsame⟩ := hshadowed hu
      rw [← Segment.results_congr hsame] at hres
      exact absurd (Index.mem_resultSet.mpr ⟨p, hp, hres⟩) hout
  · intro r hr r' hr' heq
    obtain ⟨x, v, hmem, rfl⟩ := Pool.row_of_candidates base h.stores hr
    obtain ⟨x', v', hmem', rfl⟩ := Pool.row_of_candidates base h.stores hr'
    have hrow : (x, v) = (x', v') := List.inj_on_of_nodup_map hdist hmem hmem' heq
    cases hrow
    rfl

/-- With pairwise distinct distances, an index whose joins are apart answers every search as an
index that never merges; and histories of fewer than 2^62 vectors run to their end in both. -/
theorem merging_invisible (rt : Runtime B ID Vec Dist) (metric : Vec → Vec → Dist)
    (base : ExactBase rt.faiss metric) (config : IndexConfig) (edits : List (Edit ID Vec))
    (rand' : Nat → Nat) (callback callback' : Bool) (draws draws' : Nat) :
    (∀ st st' : Index B ID,
      (Index.create rt { config with enableMerge := true } callback draws).run rt
        (edits.map Edit.op) = .ok st →
      (Index.create (rt.withRand rand') { config with enableMerge := false } callback'
        draws').run (rt.withRand rand') (edits.map Edit.op) = .ok st' →
      (∀ m < st.draws, ∀ n < st.draws, rt.rand m = rt.rand n → m = n) →
      (∀ m < st'.draws, ∀ n < st'.draws, rand' m = rand' n → m = n) →
      ApartJoins st.trace →
      ∀ q, ((addedRows edits).map fun r => metric q r.2).Nodup →
      ∀ k, ∃ res, st.search rt q k = .ok res ∧ st'.search (rt.withRand rand') q k = .ok res) ∧
    ((addedRows edits).length < 2 ^ 62 →
      (∃ st : Index B ID, (Index.create rt { config with enableMerge := true } callback
        draws).run rt (edits.map Edit.op) = .ok st) ∧
      ∃ st' : Index B ID, (Index.create (rt.withRand rand') { config with enableMerge := false }
        callback' draws').run (rt.withRand rand') (edits.map Edit.op) = .ok st') := by
  refine ⟨fun st st' hrun hrun' hrand hrand' hapart q hdist k => ?_, fun hn =>
    ⟨Index.run_total _ _ _ _ hn, Index.run_total _ _ _ _ hn⟩⟩
  have base' : ExactBase (rt.withRand rand').faiss metric := base
  have hquiet : ApartJoins st'.trace := by
    rw [unmerged_trace hrun' rfl]
    exact fun e he => by cases he
  have hsearch := (Tracked.run base.toStoringBase hrun hrand hapart).search_eq base hdist k
  have hsearch' := (Tracked.run base'.toStoringBase hrun' hrand' hquiet).search_eq base' hdist k
  have hpool : (Pool.run (rt.withRand rand') { config with enableMerge := false } edits :
      Pool B ID) = Pool.run rt { config with enableMerge := true } edits :=
    Pool.run_congr rt rand' { config with enableMerge := true } { config with enableMerge := false }
      rfl rfl edits
  rw [hpool] at hsearch'
  exact ⟨_, hsearch, hsearch'⟩

/-- The two copies of the id are joined, and the merged segment reports it once. -/
theorem merging_hides_copy :
    ∃ st st', (Index.create (lineRuntime Nat id) (unitConfig true) false 0).run
        (lineRuntime Nat id) [.add [(1, 10)], .add [(1, 20)]] = .ok st ∧
      (Index.create (lineRuntime Nat id) (unitConfig false) false 0).run
        (lineRuntime Nat id) [.add [(1, 10)], .add [(1, 20)]] = .ok st' ∧
      st.search (lineRuntime Nat id) 0 3 = .ok [1] ∧
      st'.search (lineRuntime Nat id) 0 3 = .ok [1, 1] := by
  obtain ⟨st, hrun, hres⟩ : ∃ st, (Index.create (lineRuntime Nat id) (unitConfig true) false 0).run
      (lineRuntime Nat id) [.add [(1, 10)], .add [(1, 20)]] = .ok st ∧
        st.search (lineRuntime Nat id) 0 3 = .ok [1] := exists_ok (by decide +kernel)
  obtain ⟨st', hrun', hres'⟩ : ∃ st', (Index.create (lineRuntime Nat id) (unitConfig false) false
      0).run (lineRuntime Nat id) [.add [(1, 10)], .add [(1, 20)]] = .ok st' ∧
        st'.search (lineRuntime Nat id) 0 3 = .ok [1, 1] := exists_ok (by decide +kernel)
  exact ⟨st, st', hrun, hrun', hres, hres'⟩

/-- The first two vectors are joined; the second copy of the id stays in a segment of its own. -/
theorem merging_invisible_readded :
    ∃ st st', (Index.create (lineRuntime Nat id) (unitConfig true) false 0).run
        (lineRuntime Nat id) [.add [(1, 10), (2, 20)], .add [(1, 15)]] = .ok st ∧
      (Index.create (lineRuntime Nat id) (unitConfig false) false 0).run
        (lineRuntime Nat id) [.add [(1, 10), (2, 20)], .add [(1, 15)]] = .ok st' ∧
      ApartJoins st.trace ∧ st.trace ≠ [] ∧
      ∃ res, st.search (lineRuntime Nat id) 0 3 = .ok res ∧
        st'.search (lineRuntime Nat id) 0 3 = .ok res := by
  obtain ⟨hsearch, htotal⟩ := merging_invisible (lineRuntime Nat id) lineMetric
    (flatBase_exact lineMetric) (unitConfig true) [.add [(1, 10), (2, 20)], .add [(1, 15)]] id
    false false 0 0
  obtain ⟨-, st', hrun'⟩ := htotal (by decide)
  obtain ⟨st, hrun, hapart, hjoined⟩ : ∃ st, (Index.create (lineRuntime Nat id) (unitConfig true)
      false 0).run (lineRuntime Nat id) [.add [(1, 10), (2, 20)], .add [(1, 15)]] = .ok st ∧
        ApartJoins st.trace ∧ st.trace.length ≠ 0 := exists_ok (by decide +kernel)
  refine ⟨st, st', hrun, hrun', hapart, fun h => hjoined (by rw [h]; rfl), ?_⟩
  exact hsearch st st' hrun hrun' (fun _ _ _ _ h => h) (fun _ _ _ _ h => h) hapart 0 (by decide) 3

end Searches

end Vecodex
