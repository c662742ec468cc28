import Vecodex.Laws.SegmentIds

/-!
# The two lists of segments

`segments_` and the levels start out with the same segments. A merge updates them by different
means: it moves the survivor within the levels, but appends it to `segments_` once more and looks
for its old reference under an id the survivor no longer has. So the survivor stays in `segments_`
twice, and with every join the list is one longer than the levels (`size_eq_current_add_joins`).
The lists agree exactly as long as nothing was joined (`lists_agree_iff`).
-/

namespace Vecodex

open Lib

variable {B ID Vec Dist : Type}

/-- How many pairs of segments were joined. -/
def joins (trace : List (MergeEvent B ID)) : Nat :=
  trace.countP fun
    | .joined _ _ => true
    | .dropped _ _ _ => false

theorem joins_append (trace trace' : List (MergeEvent B ID)) :
    joins (trace ++ trace') = joins trace + joins trace' :=
  List.countP_append

theorem joins_mono {trace trace' : List (MergeEvent B ID)} (h : trace <+: trace') :
    joins trace ≤ joins trace' :=
  h.sublist.countP_le

theorem joins_dropId (idx : Index B ID) (id : Nat) :
    joins (idx.dropId id).trace = joins idx.trace := by
  rcases idx.dropId_cases id with ⟨-, hsame⟩ | ⟨p, left, -, -, -, hdrop⟩
  · rw [hsame]
  · rw [hdrop]
    exact joins_append _ _

theorem joins_foldl_dropId (idx : Index B ID) (ids : List Nat) :
    joins (ids.foldl Index.dropId idx).trace = joins idx.trace := by
  induction ids generalizing idx with
  | nil => rfl
  | cons id ids ih => rw [List.foldl_cons, ih, joins_dropId]

/-! ## While nothing is joined -/

/-- Nothing is pending and the lists agree. -/
def Agreeing (w : Work B ID) : Prop := w.Idle ∧ w.index.segments.Perm w.index.current

section Agreeing

variable [DecidableEq ID]

theorem Agreeing.step {rt : Runtime B ID Vec Dist} {w w' : Work B ID} (h : Agreeing w)
    {changes : List (Change B ID Vec)} (hstep : Step rt changes w w')
    (hnone : joins w'.index.trace = 0) : Agreeing w' := by
  obtain ⟨hidle, hperm⟩ := h
  cases hstep with
  | append _ rows => exact ⟨hidle, hperm⟩
  | sealLast _ idle full stored =>
    obtain ⟨levels, hlevels, rfl⟩ := Index.storageAdd_eq_ok stored
    refine ⟨hidle, ?_⟩
    exact ((List.perm_append_singleton _ _).trans (hperm.cons _)).trans hlevels.symm
  | report =>
    obtain ⟨calls, hcalls⟩ := w.index.notify_eq [] w.fresh
    rw [hcalls]
    exact ⟨hidle, hperm⟩
  | merge hmerge =>
    cases hmerge with
    | join j reported left right kinds =>
      replace hnone : joins (w.index.trace ++ _) = 0 := hnone
      rw [joins_append] at hnone
      exact absurd hnone (Nat.succ_ne_zero _)
    | finish =>
      refine ⟨⟨rfl, rfl⟩, ?_⟩
      show (w.index.finishPass w.erased w.inserted).segments.Perm
        (w.index.finishPass w.erased w.inserted).current
      rw [hidle.1, hidle.2]
      show (w.index.segments ++ []).Perm w.index.current
      rwa [List.append_nil]
    | compact idle =>
      refine ⟨hidle, ?_⟩
      show w.index.segments.Perm w.index.compactLevels.current
      rwa [Index.current_compactLevels]
  | elsewhere _ n => exact ⟨hidle, hperm⟩
  | erase _ ids => exact ⟨hidle, hperm⟩
  | push _ wf idle stored =>
    obtain ⟨levels, hlevels, rfl⟩ := Index.pushSegment_eq_ok stored
    refine ⟨hidle, ?_⟩
    exact ((List.perm_append_singleton _ _).trans (hperm.cons _)).trans hlevels.symm

theorem agreeing_of_run {rt : Runtime B ID Vec Dist} {config : IndexConfig} {callback : Bool}
    {draws : Nat} {ops : List (Op B ID Vec)} {st : Index B ID}
    (hrun : (Index.create rt config callback draws).run rt ops = .ok st)
    (hnone : joins st.trace = 0) : st.segments.Perm st.current := by
  refine ((Index.run_runs hrun).invariant
    (P := fun _ u => joins u.index.trace = 0 → Agreeing u) ?_ ?_ hnone).2
  · intro _ _ u v hu hstep hnone
    have hle := joins_mono hstep.trace_prefix
    exact (hu (by omega)).step hstep hnone
  · exact fun _ => ⟨⟨rfl, rfl⟩, List.Perm.refl _⟩

end Agreeing

/-! ## The references a merge leaves behind -/

/-- The pairs a pass has joined so far, each as the absorbed segment and the survivor's old id:
the absorbed segment is still listed under its id, and nothing carries the old id any more. -/
structure Retired (w : Work B ID) (pairs : List (Nat × Nat)) : Prop where
  ids : w.erased = pairs.flatMap fun r => [w.index.idOf r.1, r.2]
  count : pairs.length = w.inserted.length
  nodup : (pairs.map Prod.fst).Nodup
  listed : ∀ r ∈ pairs, r.1 ∈ w.index.segments
  absorbed : ∀ r ∈ pairs, r.1 ∉ w.index.current
  renamed : ∀ r ∈ pairs, ∀ p, w.index.heap.Alloc p → w.index.idOf p ≠ r.2

/-- `segments_` is as long as the levels and the joins together. -/
structure Counted (w : Work B ID) : Prop where
  retired : ∃ pairs, Retired w pairs
  length : w.index.segments.length = w.index.current.length + joins w.index.trace

theorem Retired.nil {w : Work B ID} (idle : w.Idle) : Retired w [] := by
  obtain ⟨he, hi⟩ := idle
  constructor
  · exact he
  · rw [hi]
    rfl
  · exact List.nodup_nil
  · intro r hr
    cases hr
  · intro r hr
    cases hr
  · intro r hr
    cases hr

/-- The two lookups of a joined pair remove one reference: the absorbed segment's. -/
theorem length_foldl_dropId {pairs : List (Nat × Nat)} (idx : Index B ID)
    (hinj : ∀ p ∈ idx.segments, ∀ q ∈ idx.segments, idx.idOf p = idx.idOf q → p = q)
    (hnodup : (pairs.map Prod.fst).Nodup) (hlisted : ∀ r ∈ pairs, r.1 ∈ idx.segments)
    (hrenamed : ∀ r ∈ pairs, ∀ p ∈ idx.segments, idx.idOf p ≠ r.2) :
    ((pairs.flatMap fun r => [idx.idOf r.1, r.2]).foldl Index.dropId idx).segments.length +
      pairs.length = idx.segments.length := by
  induction pairs generalizing idx with
  | nil => rfl
  | cons r pairs ih =>
    rw [List.map_cons, List.nodup_cons] at hnodup
    rw [List.flatMap_cons, List.foldl_append, List.foldl_cons, List.foldl_cons, List.foldl_nil]
    rcases idx.dropId_cases (idx.idOf r.1) with ⟨hnone, -⟩ | ⟨p, left, hid, hperm, hsub, hdrop⟩
    · exact absurd rfl (hnone r.1 (hlisted r List.mem_cons_self))
    · rw [hdrop]
      obtain rfl : p = r.1 := hinj p (hperm.mem_iff.mpr List.mem_cons_self) r.1
        (hlisted r List.mem_cons_self) hid
      rcases Index.dropId_cases { idx with
          segments := left
          trace := idx.trace ++ [.dropped r.1 left idx.current] } r.2 with
        ⟨-, hsame⟩ | ⟨q, left', hq, hperm', -, -⟩
      · rw [hsame]
        have hlen := hperm.length_eq
        have htail := ih { idx with
            segments := left
            trace := idx.trace ++ [.dropped r.1 left idx.current] }
          (fun p hp q hq => hinj p (hsub.subset hp) q (hsub.subset hq)) hnodup.2
          (fun s hs => by
            refine (List.mem_cons.mp (hperm.mem_iff.mp
              (hlisted s (List.mem_cons_of_mem _ hs)))).resolve_left fun heq => hnodup.1 ?_
            exact heq ▸ List.mem_map_of_mem hs)
          (fun s hs p hp => hrenamed s (List.mem_cons_of_mem _ hs) p (hsub.subset hp))
        rw [List.length_cons] at hlen
        rw [hlen, List.length_cons, ← Nat.add_assoc]
        exact congrArg (· + 1) htail
      · exact absurd hq (hrenamed r List.mem_cons_self q
          (hsub.subset (hperm'.mem_iff.mpr List.mem_cons_self)))

namespace Counted

variable {rt : Runtime B ID Vec Dist} {changes : List (Change B ID Vec)} {w : Work B ID}

/-- A step that renames nothing and leaves both lists alone. -/
theorem transfer (h : Counted w) {idx : Index B ID} (fresh : List Nat)
    (level : Nat) (hnext : idx.heap.next = w.index.heap.next)
    (hid : ∀ p, idx.idOf p = w.index.idOf p)
    (hsegments : idx.segments = w.index.segments) (hcurrent : idx.current = w.index.current)
    (htrace : idx.trace = w.index.trace) :
    Counted { w with index := idx, fresh := fresh, level := level } := by
  obtain ⟨⟨pairs, hpairs⟩, hlength⟩ := h
  refine ⟨⟨pairs, ?_, hpairs.count, hpairs.nodup, ?_, ?_, ?_⟩, ?_⟩
  · simp only [hid]
    exact hpairs.ids
  · simp only [hsegments]
    exact hpairs.listed
  · simp only [hcurrent]
    exact hpairs.absorbed
  · simp only [hid, Heap.Alloc, hnext]
    exact hpairs.renamed
  · simp only [hsegments, hcurrent, htrace]
    exact hlength

/-- A segment that joins both lists. -/
theorem insert {w' : Work B ID} (h : Counted w) (idle : w'.Idle)
    {p : Nat} (hsegments : w'.index.segments = w.index.segments ++ [p])
    (hcurrent : w'.index.current.Perm (p :: w.index.current))
    (htrace : w'.index.trace = w.index.trace) : Counted w' := by
  refine ⟨⟨[], Retired.nil idle⟩, ?_⟩
  have hlength := h.length
  rw [hsegments, hcurrent.length_eq, htrace, List.length_append, List.length_cons]
  simp only [List.length_cons, List.length_nil]
  omega

variable [DecidableEq ID]

/-- A joined pair adds the absorbed segment and the old id of the survivor. -/
theorem retired_join {pairs : List (Nat × Nat)} (hpairs : Retired w pairs)
    (hsound : Sound rt changes w) (hd : DistinctIds rt changes (w.index.draws + 1)) {j a b : Nat}
    (left : w.index.levels.cell w.level j = some a)
    (right : w.index.levels.cell w.level (j + 1) = some b) :
    Retired { w with
      index := w.index.join rt w.level j a b
      erased := w.erased ++ [w.index.idOf b, w.index.idOf a]
      inserted := w.inserted ++ [a] } (pairs ++ [(b, w.index.idOf a)]) := by
  obtain ⟨-, hne, -, -, -⟩ := hsound.shape.join_cells rt left right
  have hac := Index.mem_current_of_cell left
  have hbc := Index.mem_current_of_cell right
  have hid := w.index.join_idOf rt w.level j a b
  have hcur := fun p => hsound.shape.mem_join_current rt left right (p := p)
  have hkeep : ∀ p, p ∉ w.index.current →
      (w.index.join rt w.level j a b).idOf p = w.index.idOf p := by
    intro p hp
    rw [hid, if_neg (ne_of_mem_of_not_mem hac hp).symm]
  have hrenamed : ∀ old, (∀ p, w.index.heap.Alloc p → p ≠ a → w.index.idOf p ≠ old) →
      UsedId rt changes w.index.draws old → ∀ p, w.index.heap.Alloc p →
      (w.index.join rt w.level j a b).idOf p ≠ old := by
    intro old hold hused p hp
    rw [hid]
    split
    · exact hd.rand_ne hused
    · next hpa => exact hold p hp hpa
  constructor
  · show w.erased ++ _ = _
    rw [List.flatMap_append, hpairs.ids]
    congr 1
    · refine List.flatMap_congr fun r hr => ?_
      rw [hkeep r.1 (hpairs.absorbed r hr)]
    · show _ = [(w.index.join rt w.level j a b).idOf b, w.index.idOf a]
      rw [hid, if_neg (Ne.symm hne)]
  · rw [List.length_append, List.length_append, hpairs.count]
    rfl
  · rw [List.map_append, List.nodup_append]
    refine ⟨hpairs.nodup, List.nodup_singleton _, fun p hp q hq heq => ?_⟩
    obtain ⟨r, hr, rfl⟩ := List.mem_map.mp hp
    rw [List.mem_singleton.mp hq] at heq
    exact hpairs.absorbed r hr (heq ▸ hbc)
  · intro r hr
    rcases List.mem_append.mp hr with hr | hr
    · exact hpairs.listed r hr
    · rw [List.mem_singleton.mp hr]
      exact hsound.visited b hbc
  · intro r hr hrc
    rcases List.mem_append.mp hr with hr | hr
    · exact hpairs.absorbed r hr ((hcur r.1).mp hrc).1
    · rw [List.mem_singleton.mp hr] at hrc
      exact ((hcur b).mp hrc).2 rfl
  · intro r hr
    rcases List.mem_append.mp hr with hr | hr
    · refine hrenamed r.2 (fun p hp _ => hpairs.renamed r hr p hp)
        (hsound.ids.retired_used r.2 ?_)
      rw [hpairs.ids]
      exact List.mem_flatMap.mpr ⟨r, hr, List.mem_cons_of_mem _ List.mem_cons_self⟩
    · rw [List.mem_singleton.mp hr]
      have haa := hsound.shape.current_alloc a hac
      exact hrenamed _ (fun p hp hpa heq => hpa (hsound.ids.inj p a hp haa heq))
        (hsound.ids.used a haa)

/-- The survivor leaves its old id, and the absorbed segment leaves the levels. -/
theorem join (h : Counted w) (hsound : Sound rt changes w)
    (hd : DistinctIds rt changes (w.index.draws + 1)) {j a b : Nat}
    (left : w.index.levels.cell w.level j = some a)
    (right : w.index.levels.cell w.level (j + 1) = some b) :
    Counted { w with
      index := w.index.join rt w.level j a b
      erased := w.erased ++ [w.index.idOf b, w.index.idOf a]
      inserted := w.inserted ++ [a] } := by
  obtain ⟨⟨pairs, hpairs⟩, hlength⟩ := h
  refine ⟨⟨_, retired_join hpairs hsound hd left right⟩, ?_⟩
  show w.index.segments.length =
    (w.index.join rt w.level j a b).current.length + joins (w.index.trace ++ [_])
  obtain ⟨hperm, -⟩ := hsound.shape.join_cells rt left right
  have hlen := hperm.length_eq
  rw [List.length_cons] at hlen
  rw [joins_append, hlength, hlen]
  show _ = _ + (_ + 1)
  omega

/-- A pass lists its survivors once more and removes its absorbed segments. -/
theorem finish (h : Counted w) (hsound : Sound rt changes w) :
    Counted { w with
      index := w.index.finishPass w.erased w.inserted
      level := w.level + 1
      erased := []
      inserted := [] } := by
  obtain ⟨⟨pairs, hpairs⟩, hlength⟩ := h
  refine ⟨⟨[], Retired.nil ⟨rfl, rfl⟩⟩, ?_⟩
  obtain ⟨hsegments, htrace⟩ := w.index.finishPass_drops w.erased w.inserted
  obtain ⟨segments, trace, calls, heq, -, -⟩ := w.index.finishPass_eq w.erased w.inserted
  have halloc : ∀ p ∈ w.index.segments ++ w.inserted, w.index.heap.Alloc p := by
    intro p hp
    rcases List.mem_append.mp hp with hp | hp
    · exact hsound.shape.segments_alloc p hp
    · exact hsound.shape.current_alloc p (hsound.shape.inserted_current p hp)
  have hdrop := length_foldl_dropId { w.index with segments := w.index.segments ++ w.inserted }
    (fun p hp q hq => hsound.ids.inj p q (halloc p hp) (halloc q hq)) hpairs.nodup
    (fun r hr => List.mem_append_left _ (hpairs.listed r hr))
    (fun r hr p hp => hpairs.renamed r hr p (halloc p hp))
  replace hdrop : (w.erased.foldl Index.dropId
      { w.index with segments := w.index.segments ++ w.inserted }).segments.length + pairs.length =
        (w.index.segments ++ w.inserted).length := by
    rw [hpairs.ids]
    exact hdrop
  rw [← hsegments, hpairs.count, List.length_append] at hdrop
  have hjoins := joins_foldl_dropId { w.index with segments := w.index.segments ++ w.inserted }
    w.erased
  rw [← htrace] at hjoins
  rw [heq] at hdrop hjoins ⊢
  dsimp only at hdrop hjoins ⊢
  show segments.length = w.index.current.length + joins trace
  rw [hjoins, ← hlength]
  omega

/-- Every step keeps the count when segment ids are distinct. -/
theorem step (h : Counted w) (hsound : Sound rt changes w) {changes' : List (Change B ID Vec)}
    {w' : Work B ID} (hd : DistinctIds rt (changes ++ changes') w'.index.draws)
    (hstep : Step rt changes' w w') : Counted w' := by
  cases hstep with
  | append _ rows =>
    exact h.transfer w.fresh w.level rfl (w.index.appendLast_idOf rt rows) rfl rfl rfl
  | sealLast _ idle full stored =>
    obtain ⟨levels, hperm, rfl⟩ := Index.storageAdd_eq_ok stored
    exact h.insert idle rfl hperm rfl
  | report =>
    obtain ⟨calls, hcalls⟩ := w.index.notify_eq [] w.fresh
    rw [hcalls]
    exact h.transfer [] w.level rfl (fun _ => rfl) rfl rfl rfl
  | merge hmerge =>
    cases hmerge with
    | join j reported left right kinds =>
      exact h.join hsound (hd.mono (Nat.le_refl _)) left right
    | finish => exact h.finish hsound
    | compact idle =>
      exact h.transfer w.fresh 0 rfl (fun _ => rfl) rfl w.index.current_compactLevels rfl
  | elsewhere _ n => exact h.transfer w.fresh w.level rfl (fun _ => rfl) rfl rfl rfl
  | erase _ ids =>
    exact h.transfer w.fresh w.level (w.index.erase_next ids) (w.index.erase_idOf ids) rfl rfl rfl
  | push _ wf idle stored =>
    obtain ⟨levels, hperm, rfl⟩ := Index.pushSegment_eq_ok stored
    exact h.insert idle rfl hperm rfl

end Counted

/-! ## Histories -/

variable [DecidableEq ID]

/-- With distinct segment ids, `size()` exceeds the number of current segments by the number of
joins. -/
theorem size_eq_current_add_joins {rt : Runtime B ID Vec Dist} {config : IndexConfig}
    {callback : Bool} {draws : Nat} {ops : List (Op B ID Vec)} {st : Index B ID}
    (hrun : (Index.create rt config callback draws).run rt ops = .ok st)
    (hd : DistinctIds rt (ops.flatMap Op.changes) st.draws) :
    st.size = st.current.length + joins st.trace := by
  have hcounted := ((Sound.create rt config callback draws).invariant (P := fun _ u => Counted u)
    (Index.run_runs hrun) hd (fun _ _ _ _ hd hsound hstep h => h.step hsound hd hstep)
    ⟨⟨[], Retired.nil ⟨rfl, rfl⟩⟩, rfl⟩).2
  exact hcounted.length

/-- The lists agree, with every segment once, as long as nothing was joined; and only so long when
segment ids are distinct. -/
theorem lists_agree_iff (rt : Runtime B ID Vec Dist) (config : IndexConfig) (callback : Bool)
    (draws : Nat) (ops : List (Op B ID Vec)) (st : Index B ID)
    (hrun : (Index.create rt config callback draws).run rt ops = .ok st) :
    (joins st.trace = 0 → st.segments.Perm st.current ∧ st.segments.Nodup ∧
      st.size = st.current.length) ∧
    (DistinctIds rt (ops.flatMap Op.changes) st.draws →
      ((st.segments.Perm st.current ∧ st.segments.Nodup ∧ st.size = st.current.length) ↔
        joins st.trace = 0)) := by
  have hagree : joins st.trace = 0 → st.segments.Perm st.current ∧ st.segments.Nodup ∧
      st.size = st.current.length := by
    intro hnone
    have hperm := agreeing_of_run hrun hnone
    have hshape := (Shape.create rt config callback draws).of_runs (Index.run_runs hrun)
    exact ⟨hperm, hperm.nodup_iff.mpr hshape.nodup, hperm.length_eq⟩
  refine ⟨hagree, fun hd => ⟨fun h => ?_, hagree⟩⟩
  have hsize := size_eq_current_add_joins hrun hd
  have hsame := h.2.2
  omega

/-- After the first join the survivor is listed twice. -/
theorem survivor_listed_twice :
    ∃ st, (Index.create (lineRuntime Nat id) (unitConfig true) false 0).run (lineRuntime Nat id)
        [.add [(1, 10), (2, 20)]] = .ok st ∧
      st.current = [0] ∧ st.segments = [0, 0] ∧ st.size = 2 :=
  exists_ok (by decide +kernel)

/-- Without merging the same vectors are in two segments, listed once each. -/
theorem lists_agree_unmerged :
    ∃ st, (Index.create (lineRuntime Nat id) (unitConfig false) false 0).run (lineRuntime Nat id)
        [.add [(1, 10), (2, 20)]] = .ok st ∧
      joins st.trace = 0 ∧ st.segments.Perm st.current ∧ st.segments.Nodup ∧
        st.size = st.current.length := by
  obtain ⟨st, hrun, hnone⟩ : ∃ st, (Index.create (lineRuntime Nat id) (unitConfig false) false
      0).run (lineRuntime Nat id) [.add [(1, 10), (2, 20)]] = .ok st ∧ joins st.trace = 0 :=
    exists_ok (by decide +kernel)
  exact ⟨st, hrun, hnone, (lists_agree_iff _ _ _ _ _ st hrun).1 hnone⟩

end Vecodex
