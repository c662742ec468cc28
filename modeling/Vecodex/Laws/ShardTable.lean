import Vecodex.Laws.Process

/-!
# The table of shards of a searcher

The subscripts of both handlers of a searcher make the entries they do not find, with a null
pointer. `shard_table_intact_iff` says which requests leave the table as the constructor made it:
those that name a configured shard, and those that get to no subscript of an entry.

Updates that the model of the searcher without its failures accepts have the same effect in the
process (`run_follows`), and a search of one shard has the same answer.
-/

namespace Vecodex

open Lib

variable {B Vec Dist : Type}

namespace SearcherProcess

variable {p : SearcherProcess B} {i sh : String}

namespace Intact

variable {names : List (String × String)} {q : SearcherProcess B}

theorem congr (h : Intact names p) (hshards : q.shards = p.shards)
    (hused : ∀ c ∈ q.used, c ∈ p.used ∨ c ∈ names) : Intact names q := by
  have htable : ∀ j, q.table j = p.table j := fun j => by rw [table, hshards, table]
  refine ⟨fun j t => ?_, fun j t hj => ?_, fun c hc => (hused c hc).elim (h.used c) id⟩
  · rw [Has, htable]
    exact h.entries j t
  · rw [Has, htable] at hj
    rw [entry, htable]
    exact h.full j t hj

/-- A call through a configured entry. -/
theorem called (h : Intact names p) (hc : (i, sh) ∈ names) : Intact names (p.called i sh) := by
  have hhas : ∀ j t, (p.called i sh).Has j t ↔ p.Has j t := by
    intro j t
    refine (has_called p i sh j t).trans (or_iff_right_of_imp ?_)
    rintro ⟨rfl, rfl⟩
    exact (h.entries j t).mpr hc
  refine ⟨fun j t => (hhas j t).trans (h.entries j t), fun j t hj => ?_, fun c hmem => ?_⟩
  · rw [entry_called]
    exact h.full j t ((hhas j t).mp hj)
  · rw [used_called] at hmem
    rcases List.mem_append.mp hmem with hold | hnew
    · exact h.used c hold
    · rwa [List.mem_singleton.mp hnew]

/-- A call through any other entry. -/
theorem not_called (hc : (i, sh) ∉ names) : ¬ Intact names (p.called i sh) := fun h =>
  hc (h.used _ (by rw [used_called]; exact List.mem_append_right _ List.mem_cons_self))

theorem setEntry (h : Intact names p) (hc : (i, sh) ∈ names) (index : Index B Text) :
    Intact names (p.setEntry i sh (some index)) := by
  refine ⟨fun j t => (has_setEntry p i sh _ j t).trans ?_, fun j t hj => ?_, h.used⟩
  · rw [h.entries]
    refine or_iff_right_of_imp ?_
    rintro ⟨rfl, rfl⟩
    exact hc
  · rw [entry_setEntry]
    by_cases heq : j = i ∧ t = sh
    · exact ⟨index, if_pos heq⟩
    · rw [if_neg heq]
      exact h.full j t (((has_setEntry p i sh _ j t).mp hj).resolve_left heq)

theorem call (h : Intact names p) (hc : (i, sh) ∈ names)
    (f : Index B Text → Except Fault (Index B Text)) : Intact names (p.call i sh f).2 := by
  rcases call_cases p i sh f with ⟨-, hcall⟩ | ⟨_, _, -, -, hcall⟩ | ⟨_, index', -, -, hcall⟩
  · rw [hcall]
    exact h.called hc
  · rw [hcall]
    exact h.called hc
  · rw [hcall]
    exact (h.called hc).setEntry hc index'

/-- An entry that is not configured is null. -/
theorem entry_eq_none (h : Intact names p) (hc : (i, sh) ∉ names) : p.entry i sh = none := by
  have hmissing : (p.table i).lookup sh = none :=
    AList.lookup_eq_none.mpr fun hhas => hc ((h.entries i sh).mp hhas)
  simp only [entry, hmissing, Option.join_none]

end Intact

/-! ## Requests one by one -/

/-- The file of the id can be opened and read. -/
def Readable (platform : Platform B) (store : Store) (indexId : String)
    (files : Nat → Option Bytes) (id : Nat) : Prop :=
  ∃ file out, fetched platform store indexId files id = some file ∧
    deserealizeSegment platform.toFiles file = .ok out

/-- A round of the first loop either stops before the subscript or evaluates it. -/
theorem pushAdded_reaches (platform : Platform B) (store : Store) (request : UpdateRequest)
    (p : SearcherProcess B) (id : Nat) :
    (¬ Readable platform store request.indexId p.files id ∧
      ∃ e, p.pushAdded platform store request id =
        (.error e, p.getObject platform store request.indexId id)) ∨
    (Readable platform store request.indexId p.files id ∧
      (p.entry request.indexId request.shardId = none →
        ∃ e, p.pushAdded platform store request id =
          (.error e, (p.getObject platform store request.indexId id).called request.indexId
            request.shardId))) := by
  rcases hstep : p.pushAdded platform store request id with ⟨result, q⟩
  have hround := pushAdded_round platform store request p id
  rw [hstep] at hround
  cases hround with
  | missing hfile =>
    refine Or.inl ⟨?_, _, rfl⟩
    rintro ⟨file, out, hfile', -⟩
    rw [hfile] at hfile'
    cases hfile'
  | unreadable hfile hread =>
    refine Or.inl ⟨?_, _, rfl⟩
    rintro ⟨file, out, hfile', hread'⟩
    obtain rfl := Option.some.inj (hfile.symm.trans hfile')
    rw [hread] at hread'
    cases hread'
  | fatal hfile hread => exact Or.inr ⟨⟨_, _, hfile, hread⟩, fun _ => ⟨_, rfl⟩⟩
  | done hfile hread hentry =>
    refine Or.inr ⟨⟨_, _, hfile, hread⟩, fun hnull => ?_⟩
    rw [hentry] at hnull
    cases hnull

namespace Intact

variable {names : List (String × String)} {platform : Platform B} {store : Store}
  {request : UpdateRequest}

theorem getObject (h : Intact names p) (indexId : String) (id : Nat) :
    Intact names (p.getObject platform store indexId id) :=
  h.congr rfl fun _ => Or.inl

theorem pushAdded (h : Intact names p) (hc : (request.indexId, request.shardId) ∈ names)
    (id : Nat) : Intact names (p.pushAdded platform store request id).2 := by
  rcases hstep : p.pushAdded platform store request id with ⟨result, q⟩
  have hround := pushAdded_round platform store request p id
  rw [hstep] at hround
  cases hround with
  | missing => exact h.getObject _ _
  | unreadable => exact h.getObject _ _
  | fatal => exact (h.getObject _ _).called hc
  | done => exact (((h.getObject _ _).called hc).setEntry hc _).congr rfl fun _ => Or.inl

/-- An update of a configured shard. -/
theorem update (h : Intact names p) (hc : (request.indexId, request.shardId) ∈ names) :
    Intact names (p.processUpdateRequest platform store request).2 := by
  have hpushed : Intact names
      (foldStop (SearcherProcess.pushAdded platform store request) request.added p).2 :=
    foldStop_keeps (fun _ id _ hq => hq.pushAdded hc id) h
  rcases hloop : foldStop (SearcherProcess.pushAdded platform store request) request.added p with
    ⟨_ | _, q⟩
  · rw [hloop] at hpushed
    rwa [processUpdateRequest_of_error hloop]
  · rw [hloop] at hpushed
    rw [processUpdateRequest_of_ok hloop]
    exact foldStop_keeps (fun _ id _ hq => hq.call hc _) hpushed

/-- An update of any other shard is harmless when it gets to no subscript. -/
theorem update_unknown_iff (h : Intact names p)
    (hc : (request.indexId, request.shardId) ∉ names) :
    Intact names (p.processUpdateRequest platform store request).2 ↔
      (request.added = [] ∧ request.deleted = []) ∨
        ∃ id ids, request.added = id :: ids ∧
          ¬ Readable platform store request.indexId p.files id := by
  have hnull := h.entry_eq_none hc
  cases hadded : request.added with
  | nil =>
    have hloop : foldStop (SearcherProcess.pushAdded platform store request) request.added p =
        (.ok (), p) := by rw [hadded]; rfl
    rw [processUpdateRequest_of_ok hloop]
    cases hdeleted : request.deleted with
    | nil => exact ⟨fun _ => Or.inl ⟨rfl, rfl⟩, fun _ => h⟩
    | cons id ids =>
      rcases call_cases p request.indexId request.shardId
        (fun index => .ok (index.eraseSegment id).2) with
        ⟨-, hcall⟩ | ⟨_, _, hentry, -, -⟩ | ⟨_, _, hentry, -, -⟩
      · rw [foldStop_cons_error hcall]
        simp [not_called hc]
      · rw [hnull] at hentry
        cases hentry
      · rw [hnull] at hentry
        cases hentry
  | cons id ids =>
    rcases pushAdded_reaches platform store request p id with
      ⟨hbad, e, hstep⟩ | ⟨hgood, hstep⟩
    · have hloop := (congrArg (foldStop (SearcherProcess.pushAdded platform store request) · p)
        hadded).trans (foldStop_cons_error hstep ids)
      rw [processUpdateRequest_of_error hloop]
      exact ⟨fun _ => Or.inr ⟨id, ids, rfl, hbad⟩, fun _ => h.getObject _ _⟩
    · obtain ⟨e, hstep⟩ := hstep hnull
      have hloop := (congrArg (foldStop (SearcherProcess.pushAdded platform store request) · p)
        hadded).trans (foldStop_cons_error hstep ids)
      rw [processUpdateRequest_of_error hloop]
      refine ⟨fun hintact => absurd hintact (not_called hc), ?_⟩
      rintro (⟨hnil, -⟩ | ⟨id', ids', heq, hbad⟩)
      · cases hnil
      · cases heq
        exact absurd hgood hbad

/-- A search of a shard that is not configured is the only one that does harm. -/
theorem search_iff [LinearOrder Dist] (h : Intact names p) (rt : Runtime B Text Vec Dist)
    (order : IterOrder String) (request : SearchRequest Vec) :
    Intact names (p.processSearchRequest rt order request).2 ↔
      ∀ t, request.shardId = some t → (request.indexId, t) ∈ names := by
  cases hshard : request.shardId with
  | some t =>
    rw [processSearchRequest_of_some rt order p hshard]
    constructor
    · intro hintact t' ht
      cases ht
      by_contra hc
      exact not_called hc hintact
    · exact fun hknown => h.called (hknown t rfl)
  | none =>
    refine ⟨fun _ t ht => (by cases ht), fun _ => ?_⟩
    rw [processSearchRequest_of_none rt order p hshard]
    refine searchEntries_keeps rt (fun q t ht hq => ?_) ?_
    · -- the loop is over the names of the table
      have hhas : p.Has request.indexId t := order.mem_arrange.mp ht
      refine hq.congr rfl fun c hc => (List.mem_append.mp hc).imp id fun hnew => ?_
      rw [List.mem_singleton.mp hnew]
      exact (h.entries _ t).mp hhas
    · refine ⟨fun j t => ?_, fun j t hj => ?_, h.used⟩
      · rw [Has, table_subscriptTable]
        exact h.entries j t
      · rw [Has, table_subscriptTable] at hj
        rw [entry, table_subscriptTable]
        exact h.full j t hj

theorem answered_iff {α : Type} (result : Except Fault α × SearcherProcess B) :
    Intact names (answered result) ↔ Intact names result.2 := by
  obtain ⟨hshards, hused⟩ := answered_shards result
  exact ⟨fun h => h.congr hshards.symm fun c hc => Or.inl (hused ▸ hc),
    fun h => h.congr hshards fun c hc => Or.inl (hused ▸ hc)⟩

end Intact

/-! ## Requests in a row -/

end SearcherProcess

/-- The request names a configured shard, or it gets to no subscript of an entry. -/
def SearcherCall.Known (platform : Platform B) (names : List (String × String))
    (files : Nat → Option Bytes) : SearcherCall Vec → Prop
  | .search request => ∀ t, request.shardId = some t → (request.indexId, t) ∈ names
  | .update store request =>
    (request.indexId, request.shardId) ∈ names ∨ (request.added = [] ∧ request.deleted = []) ∨
      ∃ id ids, request.added = id :: ids ∧
        ¬ SearcherProcess.Readable platform store request.indexId files id

namespace SearcherProcess

variable [LinearOrder Dist] {names : List (String × String)}

theorem Intact.serve_iff (h : Intact names p) (rt : Runtime B Text Vec Dist)
    (platform : Platform B) (order : IterOrder String) (call : SearcherCall Vec) :
    Intact names (p.serve rt platform order call) ↔
      (p.ended = none → call.Known platform names p.files) := by
  unfold serve
  cases hended : p.ended with
  | some e => exact ⟨fun _ hnone => (by cases hnone), fun _ => h⟩
  | none =>
    rw [eq_self, true_imp_iff]
    cases call with
    | search request => exact (Intact.answered_iff _).trans (h.search_iff rt order request)
    | update store request =>
      refine (Intact.answered_iff _).trans ?_
      by_cases hc : (request.indexId, request.shardId) ∈ names
      · exact ⟨fun _ => Or.inl hc, fun _ => h.update hc⟩
      · exact (h.update_unknown_iff hc).trans ⟨Or.inr, fun hknown => hknown.resolve_left hc⟩

/-- The table is intact in every state of a run, from any working directory, exactly when every
request that is served names a configured shard or gets to no subscript of an entry. -/
theorem shard_table_intact_iff (rt : Runtime B Text Vec Dist) (platform : Platform B)
    (order : IterOrder String) (directory : Nat → Option Bytes) (configs : List ShardConfig)
    (calls : List (SearcherCall Vec)) :
    (∀ part, part <+: calls →
      Intact (configured configs) ((create rt directory configs).run rt platform order part)) ↔
    ∀ part call, part ++ [call] <+: calls →
      ((create rt directory configs).run rt platform order part).ended = none →
      call.Known platform (configured configs)
        ((create rt directory configs).run rt platform order part).files := by
  have hstep : ∀ p, ∀ call ∈ calls, Intact (configured configs) p →
      (Intact (configured configs) (p.serve rt platform order call) ↔
        (p.ended = none → call.Known platform (configured configs) p.files)) :=
    fun p call _ hp => hp.serve_iff rt platform order call
  exact foldl_prefixes_iff (create_intact rt directory configs).1 hstep

/-- A search of an unknown shard leaves a null entry. -/
theorem unknown_shard_inserted :
    ¬ Intact (configured [⟨"docs", "east", unitConfig false⟩])
      (eastProcess [.search ⟨0, 1, "docs", some "west"⟩]) := by
  intro h
  have hhas : (eastProcess [.search ⟨0, 1, "docs", some "west"⟩]).Has "docs" "west" := by
    decide +kernel
  have hconfigured := (h.entries "docs" "west").mp hhas
  revert hconfigured
  decide

/-! ## The searcher without its failures -/

/-- The process has the indexes of the searcher; what is missing there is missing or null here. -/
def Agrees (p : SearcherProcess B) (s : Searcher B) : Prop :=
  ∀ i sh, p.entry i sh = (s.table i).lookup sh

theorem Agrees.setEntry {s : Searcher B} (h : Agrees p s) (i sh : String) (index : Index B Text) :
    Agrees (p.setEntry i sh (some index)) (s.setShard i sh index) := by
  intro j t
  rw [entry_setEntry, Searcher.lookup_setShard, h j t]

theorem Agrees.call {s : Searcher B} (h : Agrees p s) (i sh : String)
    (f : Index B Text → Except Fault (Index B Text)) :
    Simulates Agrees (p.call i sh f) (s.call i sh f) := by
  have hcalled : Agrees (p.called i sh) s := fun j t => (entry_called p i sh j t).trans (h j t)
  unfold Searcher.call
  rw [← h i sh]
  rcases call_cases p i sh f with
    ⟨hnull, hcall⟩ | ⟨index, e, hentry, hf, hcall⟩ | ⟨index, index', hentry, hf, hcall⟩
  · rw [hnull, hcall]
    exact rfl
  · simp only [hentry, hf, hcall]
    exact rfl
  · simp only [hentry, hf, hcall]
    exact ⟨rfl, hcalled.setEntry i sh index'⟩

theorem call_rest (p : SearcherProcess B) (i sh : String)
    (f : Index B Text → Except Fault (Index B Text)) :
    (p.call i sh f).2.files = p.files ∧ (p.call i sh f).2.ended = p.ended := by
  rcases call_cases p i sh f with ⟨-, hcall⟩ | ⟨_, _, -, -, hcall⟩ | ⟨_, _, -, -, hcall⟩
  all_goals
    rw [hcall]
    exact ⟨files_called p i sh, (subscript_rest p i sh).2.2⟩

/-- The process runs, has the indexes of the searcher and no old files in its directory. -/
structure Follows (p : SearcherProcess B) (s : Searcher B) : Prop where
  agrees : Agrees p s
  files : ∀ id, p.files id = none
  running : p.ended = none

omit [LinearOrder Dist] in
theorem create_follows (rt : Runtime B Text Vec Dist) (configs : List ShardConfig) :
    Follows (create rt (fun _ => none) configs) (Searcher.create rt configs) := by
  have hall : ∀ (configs : List ShardConfig) (p : SearcherProcess B) (s : Searcher B),
      Follows p s → p.draws = s.draws →
      Follows (configs.foldl (addShard rt) p) (configs.foldl (Searcher.addShard rt) s) := by
    intro configs
    induction configs with
    | nil => exact fun _ _ h _ => h
    | cons item configs ih =>
      intro p s h hdraws
      refine ih (p.addShard rt item) (s.addShard rt item) ⟨fun j t => ?_, h.files, h.running⟩
        (congrArg (· + 1) hdraws)
      have hset := h.agrees.setEntry item.indexId item.shardId
        (Index.create rt item.config false s.draws) j t
      show (p.setEntry item.indexId item.shardId
        (some (Index.create rt item.config false p.draws))).entry j t = _
      rw [hdraws]
      exact hset
  exact hall configs _ _ ⟨fun _ _ => rfl, fun _ => rfl, rfl⟩ rfl

namespace Follows

variable {s : Searcher B} {platform : Platform B} {store : Store} {request : UpdateRequest}

theorem call (h : Follows p s) (i sh : String) (f : Index B Text → Except Fault (Index B Text)) :
    Simulates Follows (p.call i sh f) (s.call i sh f) := by
  obtain ⟨hfiles, hended⟩ := call_rest p i sh f
  refine (h.agrees.call i sh f).mono fun _ hagrees => ⟨hagrees, fun id => ?_, ?_⟩
  · rw [hfiles, h.files]
  · rw [hended, h.running]

theorem pushAdded (h : Follows p s) (id : Nat) :
    Simulates Follows (p.pushAdded platform store request id)
      (s.pushAdded platform store request id) := by
  have hopen : (p.getObject platform store request.indexId id).files id =
      store.lookup (platform.hash request.indexId, id) := by
    simp only [getObject, fetched, h.files, Option.or_none, Function.update_self]
  unfold SearcherProcess.pushAdded Searcher.pushAdded
  dsimp only
  rw [hopen]
  cases store.lookup (platform.hash request.indexId, id) with
  | none => exact rfl
  | some file =>
    dsimp only
    cases deserealizeSegment platform.toFiles file with
    | error e => exact rfl
    | ok out =>
      have hfetch : Agrees (p.getObject platform store request.indexId id) s := h.agrees
      have hcall := hfetch.call request.indexId request.shardId (pushFetched out.1)
      obtain ⟨hfiles, hended⟩ := call_rest (p.getObject platform store request.indexId id)
        request.indexId request.shardId (pushFetched out.1)
      show Simulates _ _ (s.call request.indexId request.shardId (pushFetched out.1))
      dsimp only
      rcases hp : (p.getObject platform store request.indexId id).call request.indexId
        request.shardId (pushFetched out.1) with ⟨result, q⟩
      rw [hp] at hcall hfiles hended
      cases hs : s.call request.indexId request.shardId (pushFetched out.1) with
      | error e =>
        rw [hs] at hcall
        obtain rfl : result = .error e := hcall
        exact rfl
      | ok s' =>
        rw [hs] at hcall
        obtain ⟨rfl, hagree⟩ : result = .ok () ∧ Agrees q s' := hcall
        refine ⟨rfl, hagree, fun other => ?_, hended.trans h.running⟩
        -- the fetched file is removed again
        show Function.update q.files id none other = none
        rw [show q.files = _ from hfiles, getObject, Function.update_idem]
        simp only [Function.update_apply, h.files, ite_self]

theorem processUpdateRequest (h : Follows p s) :
    Simulates Follows (p.processUpdateRequest platform store request)
      (s.processUpdateRequest platform store request) := by
  have hpushed : Simulates Follows
      (foldStop (SearcherProcess.pushAdded platform store request) request.added p)
      (request.added.foldlM (Searcher.pushAdded platform store request) s) :=
    foldStop_simulates (fun _ _ id _ hp => hp.pushAdded id) h
  rcases hloop : foldStop (SearcherProcess.pushAdded platform store request) request.added p with
    ⟨result, q⟩
  unfold Searcher.processUpdateRequest
  cases hs : request.added.foldlM (Searcher.pushAdded platform store request) s with
  | error e =>
    rw [hloop, hs] at hpushed
    obtain rfl : result = .error e := hpushed
    rw [processUpdateRequest_of_error hloop]
    exact rfl
  | ok s' =>
    rw [hloop, hs] at hpushed
    obtain ⟨rfl, hfollows⟩ := hpushed
    rw [processUpdateRequest_of_ok hloop, ok_bind]
    exact foldStop_simulates (fun _ _ id _ hp => hp.call request.indexId request.shardId _)
      hfollows

variable {rt : Runtime B Text Vec Dist} {order : IterOrder String} {s' : Searcher B}

theorem serve (h : Follows p s) (hs : s.processUpdateRequest platform store request = .ok s') :
    Follows (p.serve rt platform order (.update store request)) s' := by
  have hround : Simulates Follows (p.processUpdateRequest platform store request)
      (s.processUpdateRequest platform store request) := h.processUpdateRequest
  rw [hs] at hround
  obtain ⟨hok, hfollows⟩ := hround
  simp only [SearcherProcess.serve, h.running, answered, hok]
  exact hfollows

theorem run {updates : List (Store × UpdateRequest)} (h : Follows p s)
    (hs : updates.foldlM (fun s u => s.processUpdateRequest platform u.1 u.2) s = .ok s') :
    Follows (p.run rt platform order (updates.map fun u => .update u.1 u.2)) s' := by
  induction updates generalizing p s with
  | nil =>
    cases hs
    exact h
  | cons u updates ih =>
    rw [List.foldlM_cons] at hs
    obtain ⟨t, hstep, hrest⟩ := bind_eq_ok.mp hs
    exact ih (h.serve hstep) hrest

end Follows

/-- From the start in an empty directory, updates that the searcher accepts have the same effect on
the process. -/
theorem run_follows (rt : Runtime B Text Vec Dist) (platform : Platform B)
    (order : IterOrder String) (configs : List ShardConfig) (updates : List (Store × UpdateRequest))
    {s : Searcher B} (h : updates.foldlM (fun s u => s.processUpdateRequest platform u.1 u.2)
      (Searcher.create rt configs) = .ok s) :
    Follows ((create rt (fun _ => none) configs).run rt platform order
      (updates.map fun u => .update u.1 u.2)) s :=
  (create_follows rt configs).run h

/-- A search of one shard has the same answer. -/
theorem Agrees.processSearchRequest {s : Searcher B} (h : Agrees p s)
    (rt : Runtime B Text Vec Dist) (order : IterOrder String)
    (order' : IterOrder (Σ _ : String, Index B Text)) {request : SearchRequest Vec} {t : String}
    (hshard : request.shardId = some t) :
    (p.processSearchRequest rt order request).1 = s.processSearchRequest rt order' request := by
  have hentry : ((p.subscript request.indexId t).use request.indexId t).entry request.indexId t =
      (s.table request.indexId).lookup t := (entry_called p _ t _ t).trans (h _ t)
  simp only [SearcherProcess.processSearchRequest, Searcher.processSearchRequest, hshard,
    searchEntry, hentry]
  cases (s.table request.indexId).lookup t with
  | none => rfl
  | some index => rfl

end SearcherProcess

end Vecodex
