import Vecodex.Laws.Holdings

/-!
# Replicas

A search of a shard asks every segment the shard holds and keeps the best results of all. So its
answer depends on which segments are there, and not on the order in which they came or how often
one came. Replicas that were sent the same segments agree, whatever else they were sent, however
often a delivery was repeated, and whatever order their containers iterate in.
-/

namespace Vecodex

open Lib

variable {B Vec Dist : Type}

section Results

variable [LinearOrder Dist]

/-- The results of a segment do not depend on the iteration orders of the process. -/
theorem Segment.mem_results_congr {rt rt' : Runtime B Text Vec Dist} (hfaiss : rt'.faiss = rt.faiss)
    (s : Segment B Text) (q : Vec) (k : Nat) (r : Dist ×ₗ Text) :
    r ∈ s.results rt' q k ↔ r ∈ s.results rt q k := by
  have hsearch : s.index.singleSearch rt' k q = s.index.singleSearch rt k q := by
    simp only [FaissIndex.singleSearch, FaissIndex.candidates, hfaiss]
  obtain ⟨ans, hans, -⟩ := s.index.singleSearch_total rt k q
  exact (mem_results (d := (ofLex r).1) (x := (ofLex r).2) (hsearch.trans hans)).trans
    (mem_results hans).symm

end Results

namespace Index

variable {idx idx' : Index B Text}

/-- The index is whole, and its open segment has no documents. -/
structure Blank (idx : Index B Text) : Prop where
  rooted : idx.Rooted
  last : ∀ x, ¬ (idx.seg idx.last).index.LiveId x

theorem Blank.create (rt : Runtime B Text Vec Dist) (config : IndexConfig) (callback : Bool)
    (draws : Nat) : (Index.create rt config callback draws).Blank where
  rooted := fun _ hp => (Shape.create rt config callback draws).visited_alloc hp
  last := by
    rintro x ⟨p, hp, -⟩
    cases hp

theorem Blank.pushSegment {segment : Segment B Text} (h : idx.Blank)
    (hpush : idx.pushSegment segment = .ok idx') : idx'.Blank where
  rooted := h.rooted.pushSegment hpush
  last := by
    have hlast : idx'.last = idx.last := by
      obtain ⟨levels, -, rfl⟩ := pushSegment_eq_ok hpush
      rfl
    have hlt : idx.last < idx.heap.next := h.rooted _ (mem_visited.mpr (Or.inr rfl))
    rw [hlast, pushSegment_seg hpush, if_neg (Nat.ne_of_lt hlt)]
    exact h.last

variable [LinearOrder Dist]

/-- The results of a search are those of the segments that were pushed. -/
theorem Blank.mem_resultSet {rt : Runtime B Text Vec Dist} (h : idx.Blank) (q : Vec) (k : Nat)
    (r : Dist ×ₗ Text) : r ∈ idx.resultSet rt q k ↔ ∃ s ∈ idx.held, r ∈ s.results rt q k := by
  rw [Index.mem_resultSet]
  constructor
  · rintro ⟨p, hp, hr⟩
    rcases mem_visited.mp hp with hp | rfl
    · exact ⟨idx.seg p, List.mem_map_of_mem hp, hr⟩
    · exact absurd (Segment.live_of_results hr) (h.last _)
  · rintro ⟨s, hs, hr⟩
    obtain ⟨p, hp, rfl⟩ := List.mem_map.mp hs
    exact ⟨p, mem_visited.mpr (Or.inl hp), hr⟩

/-- Indexes that hold the same segments answer a search alike. -/
theorem Blank.search_congr {rt rt' : Runtime B Text Vec Dist} (hfaiss : rt'.faiss = rt.faiss)
    (h : idx.Blank) (h' : idx'.Blank) (hsame : ∀ s, s ∈ idx'.held ↔ s ∈ idx.held) (q : Vec)
    (k : Nat) : idx'.search rt' q k = idx.search rt q k := by
  have hset : idx'.resultSet rt' q k = idx.resultSet rt q k := by
    ext r
    simp only [h.mem_resultSet, h'.mem_resultSet, hsame, Segment.mem_results_congr hfaiss]
  rw [search_eq, search_eq, hset]

end Index

namespace SearcherProcess

variable {p : SearcherProcess B} {i sh : String} {platform : Platform B}

/-! ## Every index of a searcher -/

/-- All indexes behind the entries have the property, each under its names. -/
def Every (P : String → String → Index B Text → Prop) (p : SearcherProcess B) : Prop :=
  ∀ i sh index, p.entry i sh = some index → P i sh index

namespace Every

variable {P : String → String → Index B Text → Prop} {q : SearcherProcess B}

theorem congr (h : Every P p) (hsame : ∀ j t, q.entry j t = p.entry j t) : Every P q := by
  intro j t index hindex
  rw [hsame] at hindex
  exact h j t index hindex

/-- What `pushSegment` keeps, the first loop of an update keeps. -/
theorem pushAdded (h : Every P p)
    (hpush : ∀ j t index index' segment, P j t index → index.pushSegment segment = .ok index' →
      P j t index') (store : Store) (request : UpdateRequest) (id : Nat) :
    Every P (p.pushAdded platform store request id).2 := by
  rcases hstep : p.pushAdded platform store request id with ⟨result, q⟩
  have hround := pushAdded_round platform store request p id
  rw [hstep] at hround
  cases hround with
  | missing => exact h
  | unreadable => exact h
  | fatal => exact h.congr (entry_called _ _ _)
  | done hfile hread hentry hpushed =>
    intro j t index hindex
    dsimp only at hindex
    rw [entry_pushed] at hindex
    split at hindex
    · next heq =>
      obtain ⟨rfl, rfl⟩ := heq
      cases hindex
      exact hpush _ _ _ _ _ (h _ _ _ hentry) hpushed
    · exact h j t index hindex

variable [LinearOrder Dist]

theorem serve (h : Every P p)
    (hpush : ∀ j t index index' segment, P j t index → index.pushSegment segment = .ok index' →
      P j t index')
    (rt : Runtime B Text Vec Dist) (order : IterOrder String) (call : SearcherCall Vec) :
    Every P (p.serve rt platform order call) := by
  have hanswered : ∀ {α : Type} (result : Except Fault α × SearcherProcess B),
      Every P result.2 → Every P (answered result) := by
    intro α result hresult
    refine hresult.congr fun j t => ?_
    rw [entry, table, (answered_shards result).1, entry, table]
  unfold SearcherProcess.serve
  cases p.ended with
  | some _ => exact h
  | none =>
    cases call with
    | search request =>
      exact hanswered _ (h.congr (processSearchRequest_keeps rt order p request).1)
    | update store request =>
      apply hanswered
      have hpushed : Every P
          (foldStop (SearcherProcess.pushAdded platform store request) request.added p).2 :=
        foldStop_keeps (fun _ id _ hq => hq.pushAdded hpush store request id) h
      rcases hloop : foldStop (SearcherProcess.pushAdded platform store request) request.added p
        with ⟨_ | _, q⟩
      · rw [hloop] at hpushed
        rwa [processUpdateRequest_of_error hloop]
      · rw [hloop] at hpushed
        rw [processUpdateRequest_of_ok hloop]
        exact hpushed.congr (eraseLoop_keeps request request.deleted q).1

theorem run (h : Every P p)
    (hpush : ∀ j t index index' segment, P j t index → index.pushSegment segment = .ok index' →
      P j t index')
    (rt : Runtime B Text Vec Dist) (order : IterOrder String) (calls : List (SearcherCall Vec)) :
    Every P (p.run rt platform order calls) := by
  induction calls generalizing p with
  | nil => exact h
  | cons call calls ih => exact ih (h.serve hpush rt order call)

end Every

theorem create_every {P : String → String → Index B Text → Prop} (rt : Runtime B Text Vec Dist)
    (directory : Nat → Option Bytes) (configs : List ShardConfig)
    (hcreate : ∀ i sh config draws, P i sh (Index.create rt config false draws)) :
    Every P (create rt directory configs) := by
  refine List.foldlRecOn configs _ (motive := Every P) (fun i sh index hindex => (by cases hindex))
    fun q hq item _ i sh index hindex => ?_
  have hset := (entry_setEntry q item.indexId item.shardId
    (some (Index.create rt item.config false q.draws)) i sh).symm.trans hindex
  split at hset
  · cases hset
    exact hcreate _ _ _ _
  · exact hq i sh index hset

/-! ## Answers -/

variable [LinearOrder Dist]

theorem processSearchRequest_answer {index : Index B Text} (hentry : p.entry i sh = some index)
    (rt : Runtime B Text Vec Dist) (order : IterOrder String) (q : Vec) (k : Int) :
    (p.processSearchRequest rt order ⟨q, k, i, some sh⟩).1 = index.search rt q k.toNat := by
  have hsame : ((p.subscript i sh).use i sh).entry i sh = some index :=
    (entry_called p i sh i sh).trans hentry
  simp only [processSearchRequest, searchEntry, hsame]

/-- Two searchers answer every search of a shard alike when the same segments were delivered to it,
in any order and any number of times, and whatever other requests there were. -/
theorem replicas_answer_alike {rt rt' : Runtime B Text Vec Dist} (hfaiss : rt'.faiss = rt.faiss)
    (platform : Platform B) (order order' : IterOrder String)
    {directory directory' : Nat → Option Bytes} (hunread : UnreadFiles platform directory)
    (hunread' : UnreadFiles platform directory') (configs configs' : List ShardConfig)
    (calls calls' : List (SearcherCall Vec)) (hc : (i, sh) ∈ configured configs)
    (hc' : (i, sh) ∈ configured configs')
    (hsame : ∀ s, (∃ call ∈ (create rt' directory' configs').taken rt' platform order' calls',
        s ∈ gained platform i sh call) ↔
      ∃ call ∈ (create rt directory configs).taken rt platform order calls,
        s ∈ gained platform i sh call)
    (q : Vec) (k : Int) :
    (((create rt' directory' configs').run rt' platform order' calls').processSearchRequest rt'
        order' ⟨q, k, i, some sh⟩).1 =
      (((create rt directory configs).run rt platform order calls).processSearchRequest rt order
        ⟨q, k, i, some sh⟩).1 := by
  have hblank : ∀ (rt : Runtime B Text Vec Dist) (order : IterOrder String)
      (directory : Nat → Option Bytes) (configs : List ShardConfig)
      (calls : List (SearcherCall Vec)),
      Every (fun _ _ => Index.Blank) ((create rt directory configs).run rt platform order calls) :=
    fun rt order directory configs calls =>
      (create_every rt directory configs fun _ _ config draws => .create rt config false draws).run
        (fun _ _ _ _ _ h hpush => h.pushSegment hpush) rt order calls
  obtain ⟨index, hentry⟩ :=
    ((create_intact rt directory configs).2.run rt platform order calls).filled i sh hc
  obtain ⟨index', hentry'⟩ :=
    ((create_intact rt' directory' configs').2.run rt' platform order' calls').filled i sh hc'
  rw [processSearchRequest_answer hentry, processSearchRequest_answer hentry']
  refine (hblank rt order directory configs calls i sh index hentry).search_congr hfaiss
    (hblank rt' order' directory' configs' calls' i sh index' hentry') (fun s => ?_) q k.toNat
  rw [← held_of_entry hentry, ← held_of_entry hentry',
    held_eq_flatMap_gained _ _ _ hunread _ _ hc, held_eq_flatMap_gained _ _ _ hunread' _ _ hc']
  simpa only [List.mem_flatMap] using hsame s

/-- A segment that is delivered again, beside one that cannot be read. -/
theorem replicas_answer_alike_again :
    ((eastProcess [.update halfStore ⟨[7], [], "docs", "east"⟩,
        .update halfStore ⟨[7, 8], [], "docs", "east"⟩]).processSearchRequest (lineRuntime Text id)
          (.insertion _) ⟨10, 2, "docs", some "east"⟩).1 =
      ((eastProcess [.update halfStore ⟨[7], [7], "docs", "east"⟩]).processSearchRequest
        (lineRuntime Text id) (.insertion _) ⟨10, 2, "docs", some "east"⟩).1 := by
  refine replicas_answer_alike rfl linePlatform (.insertion _) (.insertion _)
    (unreadFiles_empty _) (unreadFiles_empty _) [⟨"docs", "east", unitConfig false⟩]
    [⟨"docs", "east", unitConfig false⟩] _ _ List.mem_cons_self List.mem_cons_self
    (fun s => ?_) 10 2
  have hbad : delivered linePlatform halfStore "docs" 8 = none := rfl
  have hsame : deliveries linePlatform halfStore "docs" [7, 8] =
      deliveries linePlatform halfStore "docs" [7] := by
    simp only [deliveries, hbad]
  rw [taken_of_running _ _ rfl, taken_of_running _ _ (by decide +kernel),
    taken_of_running _ _ rfl]
  simp [taken, gained, hsame]

end SearcherProcess

end Vecodex
