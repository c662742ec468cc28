import Vecodex.Laws.Process

/-!
# What a searcher holds

`getObject` leaves a file in the working directory, and the file is removed only after its segment
was pushed. A later request that asks for the same id opens that file when the object store does not
deliver one. A file stays behind in two cases: it could not be read, and then it cannot be read the
next time either; or the request ended the process. So a running process never pushes a segment from
a file that an earlier request left (`Unread`).

`held_eq_gained` is what follows for a whole life of the process: a shard holds, in order, what the
object store delivered to it, request by request.
-/

namespace Vecodex

open Lib

variable {B Vec Dist : Type}

namespace SearcherProcess

variable {p : SearcherProcess B} {i sh : String} {platform : Platform B} {store : Store}
  {request : UpdateRequest}

/-! ## Deliveries -/

/-- The segment that the object store delivers under the id: its file can be read, and the segment
can be pushed. -/
def delivered (platform : Platform B) (store : Store) (indexId : String) (id : Nat) :
    Option (Segment B Text) :=
  match store.lookup (platform.hash indexId, id) with
  | none => none
  | some file =>
    match deserealizeSegment platform.toFiles file with
    | .ok (some segment, _) => if segment.size ≤ 2 ^ 63 then some segment else none
    | _ => none

theorem delivered_of_absent {id : Nat} (h : store.lookup (platform.hash i, id) = none) :
    delivered platform store i id = none := by
  rw [delivered, h]

theorem delivered_of_unreadable {id : Nat} {file : Bytes} {e : Fault}
    (hstore : store.lookup (platform.hash i, id) = some file)
    (hread : deserealizeSegment platform.toFiles file = .error e) :
    delivered platform store i id = none := by
  simp only [delivered, hstore, hread]

theorem delivered_of_read {id : Nat} {file rest : Bytes} {segment : Option (Segment B Text)}
    (hstore : store.lookup (platform.hash i, id) = some file)
    (hread : deserealizeSegment platform.toFiles file = .ok (segment, rest)) :
    delivered platform store i id = segment.filter fun s => s.size ≤ 2 ^ 63 := by
  simp only [delivered, hstore, hread]
  cases segment with
  | none => rfl
  | some s => simp only [Option.filter_some, decide_eq_true_eq]

/-- The segments of the ids, up to the first one that is not delivered. -/
def deliveries (platform : Platform B) (store : Store) (indexId : String) :
    List Nat → List (Segment B Text)
  | [] => []
  | id :: ids =>
    match delivered platform store indexId id with
    | none => []
    | some segment => segment :: deliveries platform store indexId ids

theorem deliveries_of_none {id : Nat} (h : delivered platform store i id = none) (ids : List Nat) :
    deliveries platform store i (id :: ids) = [] := by
  rw [deliveries, h]

theorem deliveries_of_some {id : Nat} {segment : Segment B Text}
    (h : delivered platform store i id = some segment) (ids : List Nat) :
    deliveries platform store i (id :: ids) = segment :: deliveries platform store i ids := by
  rw [deliveries, h]

/-- What a request brings to a shard. -/
def gained (platform : Platform B) (i sh : String) : SearcherCall Vec → List (Segment B Text)
  | .search _ => []
  | .update store request =>
    if i = request.indexId ∧ sh = request.shardId then
      deliveries platform store request.indexId request.added
    else []

/-! ## Files that are left behind -/

/-- No file of a directory can be read as a segment file. -/
def UnreadFiles (platform : Platform B) (files : Nat → Option Bytes) : Prop :=
  ∀ id file, files id = some file → deserealizeSegment platform.toFiles file = .error .unreadable

/-- Nothing can be read in an empty directory. -/
theorem unreadFiles_empty (platform : Platform B) : UnreadFiles platform fun _ => none :=
  fun _ _ hfile => by cases hfile

/-- No file of the working directory can be read as a segment file. -/
def Unread (platform : Platform B) (p : SearcherProcess B) : Prop := UnreadFiles platform p.files

theorem Unread.update (h : Unread platform p) {q : SearcherProcess B} {id : Nat}
    {content : Option Bytes} (hq : q.files = Function.update p.files id content)
    (hcontent : ∀ file, content = some file →
      deserealizeSegment platform.toFiles file = .error .unreadable) : Unread platform q := by
  intro id' file hfile
  rw [hq] at hfile
  by_cases hid : id' = id
  · subst hid
    rw [Function.update_self] at hfile
    exact hcontent file hfile
  · rw [Function.update_of_ne hid] at hfile
    exact h id' file hfile

/-- A file that can be read was delivered by the object store. -/
theorem Unread.fetched_eq (h : Unread platform p) {id : Nat} {file : Bytes}
    {out : Option (Segment B Text) × Bytes}
    (hfile : fetched platform store i p.files id = some file)
    (hread : deserealizeSegment platform.toFiles file = .ok out) :
    store.lookup (platform.hash i, id) = some file := by
  rcases Option.or_eq_some_iff.mp hfile with hstore | ⟨-, hleft⟩
  · exact hstore
  · rw [h id file hleft] at hread
    cases hread

/-- A round of the first loop leaves no readable file, unless it ends the process. -/
theorem Unread.pushAdded (h : Unread platform p) (store : Store) (request : UpdateRequest)
    (id : Nat) :
    Outcome (Unread platform) (fun e q => e.isException = true → Unread platform q)
      (p.pushAdded platform store request id) := by
  rcases hstep : p.pushAdded platform store request id with ⟨result, q⟩
  have hround := pushAdded_round platform store request p id
  rw [hstep] at hround
  cases hround with
  | missing => exact fun hexc => absurd hexc (by decide)
  | @unreadable file hfile hread =>
    refine fun _ => h.update rfl fun file' hfile' => ?_
    obtain rfl := Option.some.inj (hfile.symm.trans hfile')
    exact hread
  | fatal _ _ hfatal =>
    intro hexc
    rw [hfatal] at hexc
    cases hexc
  | done => exact h.update (files_pushed ..) fun _ hnone => (by cases hnone)

theorem Unread.congr (h : Unread platform p) {q : SearcherProcess B} (hfiles : q.files = p.files) :
    Unread platform q := by
  intro id file hfile
  rw [hfiles] at hfile
  exact h id file hfile

/-! ## The loops of an update -/

theorem entry_pushAdded_of_ne (platform : Platform B) (store : Store) (p : SearcherProcess B)
    (id : Nat) (hne : ¬ (i = request.indexId ∧ sh = request.shardId)) :
    (p.pushAdded platform store request id).2.entry i sh = p.entry i sh := by
  rcases hstep : p.pushAdded platform store request id with ⟨result, q⟩
  have hround := pushAdded_round platform store request p id
  rw [hstep] at hround
  cases hround with
  | missing => rfl
  | unreadable => rfl
  | fatal => exact entry_called ..
  | done =>
    dsimp only
    rw [entry_pushed, if_neg hne]
    rfl

/-- The second loop changes no entry and no file. -/
theorem eraseLoop_keeps (request : UpdateRequest) (deleted : List Nat) (p : SearcherProcess B) :
    (∀ j t, (foldStop (eraseDeleted request) deleted p).2.entry j t = p.entry j t) ∧
      (foldStop (eraseDeleted request) deleted p).2.files = p.files := by
  refine foldStop_keeps (P := fun q : SearcherProcess B =>
    (∀ j t, q.entry j t = p.entry j t) ∧ q.files = p.files) (fun q id _ hq => ?_)
    ⟨fun _ _ => rfl, rfl⟩
  obtain ⟨hentries, hfiles⟩ := hq
  unfold eraseDeleted
  rcases call_cases q request.indexId request.shardId
    (fun index => .ok (index.eraseSegment id).2) with
    ⟨-, hcall⟩ | ⟨_, _, -, -, hcall⟩ | ⟨index, index', hentry, hf, hcall⟩
  · rw [hcall]
    exact ⟨fun j t => (entry_called ..).trans (hentries j t), (files_called ..).trans hfiles⟩
  · rw [hcall]
    exact ⟨fun j t => (entry_called ..).trans (hentries j t), (files_called ..).trans hfiles⟩
  · rw [hcall]
    refine ⟨fun j t => ?_, (files_called ..).trans hfiles⟩
    have hsame : index' = index := by
      rw [← Except.ok.inj hf]
      exact Index.eraseSegment_same index id
    dsimp only
    rw [entry_setEntry, hsame, ← hentries, entry_called]
    split
    · next heq => rw [heq.1, heq.2, hentry]
    · rfl

/-- The first loop pushes what the object store delivers, up to the first id it does not. -/
theorem pushLoop_held {index : Index B Text} (added : List Nat) (hunread : Unread platform p)
    (hentry : p.entry request.indexId request.shardId = some index) (hroot : index.Rooted) :
    (foldStop (pushAdded platform store request) added p).2.held request.indexId request.shardId =
      index.held ++ deliveries platform store request.indexId added := by
  induction added generalizing p index with
  | nil => exact (held_of_entry hentry).trans (List.append_nil _).symm
  | cons id ids ih =>
    have hkeep : Outcome _ _ _ := hunread.pushAdded store request id
    rcases hstep : p.pushAdded platform store request id with ⟨result, q⟩
    rw [hstep] at hkeep
    have hround := pushAdded_round platform store request p id
    rw [hstep] at hround
    cases hround with
    | missing hfile =>
      have hnone : delivered platform store request.indexId id = none :=
        delivered_of_absent (Option.or_eq_none_iff.mp hfile).1
      rw [foldStop_cons_error hstep, deliveries_of_none hnone, List.append_nil]
      exact held_of_entry hentry
    | @unreadable file hfile hread =>
      have hnone : delivered platform store request.indexId id = none := by
        cases hstore : store.lookup (platform.hash request.indexId, id) with
        | none => exact delivered_of_absent hstore
        | some file' =>
          rw [fetched, hstore, Option.some_or] at hfile
          cases hfile
          exact delivered_of_unreadable hstore hread
      rw [foldStop_cons_error hstep, deliveries_of_none hnone, List.append_nil]
      exact held_of_entry hentry
    | @fatal file out e hfile hread hfatal hstuck =>
      have hnone : delivered platform store request.indexId id = none := by
        rw [delivered_of_read (hunread.fetched_eq hfile hread) hread, Option.filter_eq_none_iff]
        intro segment hsegment
        simpa only [decide_eq_true_eq] using hstuck index hentry segment hsegment
      rw [foldStop_cons_error hstep, deliveries_of_none hnone, List.append_nil]
      exact held_of_entry ((entry_called ..).trans hentry)
    | @done file rest segment index₀ index₁ hfile hread hentry₀ hpush =>
      obtain rfl := Option.some.inj (hentry.symm.trans hentry₀)
      have hsome : delivered platform store request.indexId id = some segment := by
        have hsize := (Index.pushSegment_ok_iff index segment).mp ⟨_, hpush⟩
        rw [delivered_of_read (hunread.fetched_eq hfile hread) hread, Option.filter_some,
          if_pos (decide_eq_true hsize)]
      have hnext : ((p.getObject platform store request.indexId id).pushed request.indexId
          request.shardId id index₁).entry request.indexId request.shardId = some index₁ := by
        rw [entry_pushed, if_pos ⟨rfl, rfl⟩]
      rw [foldStop_cons_ok hstep, ih hkeep hnext (hroot.pushSegment hpush),
        hroot.held_pushSegment hpush, deliveries_of_some hsome, List.append_assoc,
        List.singleton_append]

/-! ## Requests -/

theorem held_congr {q : SearcherProcess B} (h : q.entry i sh = p.entry i sh) :
    q.held i sh = p.held i sh := by
  rw [held, h, held]

/-- An update brings its deliveries to its own shard. -/
theorem held_processUpdateRequest {names : List (String × String)} (hstock : Stocked names p)
    (hunread : Unread platform p) (hc : (i, sh) ∈ names) (store : Store)
    (request : UpdateRequest) :
    (p.processUpdateRequest platform store request).2.held i sh =
      p.held i sh ++ gained platform i sh (.update store request : SearcherCall Vec) := by
  have hfirst : (p.processUpdateRequest platform store request).2.held i sh =
      (foldStop (pushAdded platform store request) request.added p).2.held i sh := by
    rcases hloop : foldStop (pushAdded platform store request) request.added p with ⟨_ | _, q⟩
    · rw [processUpdateRequest_of_error hloop]
    · rw [processUpdateRequest_of_ok hloop]
      exact held_congr ((eraseLoop_keeps request request.deleted q).1 i sh)
  rw [hfirst, gained]
  split
  · next heq =>
    obtain ⟨rfl, rfl⟩ := heq
    obtain ⟨index, hentry⟩ := hstock.filled _ _ hc
    rw [pushLoop_held request.added hunread hentry (hstock.rooted _ _ index hentry),
      held_of_entry hentry]
  · next hne =>
    rw [List.append_nil]
    refine held_congr (foldStop_keeps
      (P := fun q : SearcherProcess B => q.entry i sh = p.entry i sh) (fun q id _ hq => ?_) rfl)
    exact (entry_pushAdded_of_ne platform store q id hne).trans hq

/-- An update leaves no readable file, unless it ends the process. -/
theorem Unread.processUpdateRequest (h : Unread platform p) (store : Store)
    (request : UpdateRequest) :
    Outcome (Unread platform) (fun e q => e.isException = true → Unread platform q)
      (p.processUpdateRequest platform store request) := by
  have hpushed := foldStop_outcome (l := request.added)
    (fun q id _ hq => Unread.pushAdded hq store request id) h
  rcases hloop : foldStop (SearcherProcess.pushAdded platform store request) request.added p with
    ⟨_ | _, q⟩
  · rw [hloop] at hpushed
    rwa [processUpdateRequest_of_error hloop]
  · rw [hloop] at hpushed
    rw [processUpdateRequest_of_ok hloop]
    have hfiles := (eraseLoop_keeps request request.deleted q).2
    rcases hloop' : foldStop (eraseDeleted request) request.deleted q with ⟨_ | _, q'⟩
    · rw [hloop'] at hfiles
      exact fun _ => Unread.congr hpushed hfiles
    · rw [hloop'] at hfiles
      exact Unread.congr hpushed hfiles

section Run

variable [LinearOrder Dist]

/-- A search changes no entry and no file. -/
theorem processSearchRequest_keeps (rt : Runtime B Text Vec Dist) (order : IterOrder String)
    (p : SearcherProcess B) (request : SearchRequest Vec) :
    (∀ j t, (p.processSearchRequest rt order request).2.entry j t = p.entry j t) ∧
      (p.processSearchRequest rt order request).2.files = p.files := by
  cases hshard : request.shardId with
  | some t =>
    rw [processSearchRequest_of_some rt order p hshard]
    exact ⟨fun j s => entry_called .., files_called ..⟩
  | none =>
    rw [processSearchRequest_of_none rt order p hshard]
    refine searchEntries_keeps rt (fun q t _ hq => hq)
      (P := fun q => (∀ j t, q.entry j t = p.entry j t) ∧ q.files = p.files) ?_
    exact ⟨fun j t => by simp only [entry, table_subscriptTable], rfl⟩

/-! ## Runs -/

/-- The calls of the list that find the process running. -/
def taken (rt : Runtime B Text Vec Dist) (platform : Platform B) (order : IterOrder String) :
    SearcherProcess B → List (SearcherCall Vec) → List (SearcherCall Vec)
  | _, [] => []
  | p, call :: calls =>
    match p.ended with
    | some _ => []
    | none => call :: taken rt platform order (p.serve rt platform order call) calls

theorem taken_of_ended (rt : Runtime B Text Vec Dist) (order : IterOrder String) {e : Fault}
    (h : p.ended = some e) (calls : List (SearcherCall Vec)) :
    p.taken rt platform order calls = [] := by
  cases calls with
  | nil => rfl
  | cons call calls => rw [taken, h]

theorem taken_of_running (rt : Runtime B Text Vec Dist) (order : IterOrder String)
    (h : p.ended = none) (call : SearcherCall Vec) (calls : List (SearcherCall Vec)) :
    p.taken rt platform order (call :: calls) =
      call :: (p.serve rt platform order call).taken rt platform order calls := by
  rw [taken, h]

theorem serve_of_ended (rt : Runtime B Text Vec Dist) (platform : Platform B)
    (order : IterOrder String) {e : Fault} (h : p.ended = some e) (call : SearcherCall Vec) :
    p.serve rt platform order call = p := by
  simp only [serve, h]

/-- The answer to a request leaves the files as the handler left them. -/
theorem Unread.answered {α : Type} {result : Except Fault α × SearcherProcess B}
    (hok : ∀ a, result.1 = .ok a → Unread platform result.2)
    (herr : ∀ e, result.1 = .error e → e.isException = true → Unread platform result.2)
    (hrun : (answered result).ended = none) : Unread platform (answered result) := by
  unfold SearcherProcess.answered at hrun ⊢
  rcases hresult : result.1 with e | a
  · rw [hresult] at hrun
    dsimp only at hrun ⊢
    split at hrun
    · next hexc =>
      rw [if_pos hexc]
      exact herr e hresult hexc
    · cases hrun
  · exact hok a hresult

/-- A process that still runs after a request has no readable file. -/
theorem Unread.serve (rt : Runtime B Text Vec Dist) (order : IterOrder String)
    (h : p.ended = none → Unread platform p) (call : SearcherCall Vec)
    (hrun : (p.serve rt platform order call).ended = none) :
    Unread platform (p.serve rt platform order call) := by
  cases hended : p.ended with
  | some e =>
    rw [serve_of_ended rt platform order hended] at hrun
    rw [hended] at hrun
    cases hrun
  | none =>
    have hunread := h hended
    unfold SearcherProcess.serve at hrun ⊢
    rw [hended] at hrun ⊢
    cases call with
    | search request =>
      have hkeep := hunread.congr (processSearchRequest_keeps rt order p request).2
      exact Unread.answered (fun _ _ => hkeep) (fun _ _ _ => hkeep) hrun
    | update store request =>
      have hkeep : Outcome _ _ _ := hunread.processUpdateRequest store request
      refine Unread.answered (fun a ha => ?_) (fun e he => ?_) hrun
      · rwa [Outcome, ha] at hkeep
      · rwa [Outcome, he] at hkeep

theorem Unread.run (rt : Runtime B Text Vec Dist) (order : IterOrder String)
    (h : p.ended = none → Unread platform p) (calls : List (SearcherCall Vec)) :
    (p.run rt platform order calls).ended = none →
      Unread platform (p.run rt platform order calls) :=
  List.foldlRecOn calls _ (motive := fun q : SearcherProcess B => q.ended = none →
    Unread platform q) h fun _ hq call _ => Unread.serve rt order hq call

theorem held_answered {α : Type} (result : Except Fault α × SearcherProcess B) :
    (answered result).held i sh = result.2.held i sh := by
  refine held_congr ?_
  rw [entry, table, (answered_shards result).1, entry, table]

/-- A request that finds the process running brings its deliveries. -/
theorem held_serve {names : List (String × String)} (rt : Runtime B Text Vec Dist)
    (order : IterOrder String) (hstock : Stocked names p) (hc : (i, sh) ∈ names)
    (hrun : p.ended = none) (hunread : Unread platform p) (call : SearcherCall Vec) :
    (p.serve rt platform order call).held i sh = p.held i sh ++ gained platform i sh call := by
  simp only [serve, hrun]
  cases call with
  | search request =>
    dsimp only
    rw [held_answered, gained, List.append_nil]
    exact held_congr ((processSearchRequest_keeps rt order p request).1 i sh)
  | update store request =>
    dsimp only
    rw [held_answered]
    exact held_processUpdateRequest hstock hunread hc store request

theorem held_run {names : List (String × String)} (rt : Runtime B Text Vec Dist)
    (order : IterOrder String) (hstock : Stocked names p) (hc : (i, sh) ∈ names)
    (hunread : p.ended = none → Unread platform p) (calls : List (SearcherCall Vec)) :
    (p.run rt platform order calls).held i sh =
      p.held i sh ++ (p.taken rt platform order calls).flatMap (gained platform i sh) := by
  induction calls generalizing p with
  | nil => exact (List.append_nil _).symm
  | cons call calls ih =>
    have hnext := ih (hstock.serve rt platform order call) (Unread.serve rt order hunread call)
    cases hended : p.ended with
    | some e =>
      rw [serve_of_ended rt platform order hended, taken_of_ended rt order hended] at hnext
      rw [taken_of_ended rt order hended]
      exact (congrArg (fun q : SearcherProcess B =>
        (q.run rt platform order calls).held i sh)
          (serve_of_ended rt platform order hended call)).trans hnext
    | none =>
      rw [taken_of_running rt order hended, List.flatMap_cons, ← List.append_assoc,
        ← held_serve rt order hstock hc hended (hunread hended) call]
      exact hnext

omit [LinearOrder Dist] in
/-- A new searcher holds nothing and leaves its directory as it is. -/
theorem create_held (rt : Runtime B Text Vec Dist) (directory : Nat → Option Bytes)
    (configs : List ShardConfig) :
    (∀ i sh, (create rt directory configs : SearcherProcess B).held i sh = []) ∧
      (create rt directory configs : SearcherProcess B).files = directory := by
  refine List.foldlRecOn configs _ (motive := fun q : SearcherProcess B =>
    (∀ i sh, q.held i sh = []) ∧ q.files = directory) ⟨fun _ _ => rfl, rfl⟩
    fun q hq item _ => ⟨fun i sh => ?_, hq.2⟩
  have hset := entry_setEntry q item.indexId item.shardId
    (some (Index.create rt item.config false q.draws)) i sh
  have hheld : (q.addShard rt item).held i sh = (((q.setEntry item.indexId item.shardId
      (some (Index.create rt item.config false q.draws))).entry i sh).map Index.held).getD [] := rfl
  rw [hheld, hset]
  split
  · rfl
  · exact hq.1 i sh

omit [LinearOrder Dist] in
theorem create_unread {directory : Nat → Option Bytes} (hunread : UnreadFiles platform directory)
    (rt : Runtime B Text Vec Dist) (configs : List ShardConfig) :
    Unread platform (create rt directory configs) := by
  rw [Unread, (create_held rt directory configs).2]
  exact hunread

theorem held_eq_flatMap_gained (rt : Runtime B Text Vec Dist) (platform : Platform B)
    (order : IterOrder String) {directory : Nat → Option Bytes}
    (hunread : UnreadFiles platform directory) (configs : List ShardConfig)
    (calls : List (SearcherCall Vec)) (hc : (i, sh) ∈ configured configs) :
    ((create rt directory configs).run rt platform order calls).held i sh =
      ((create rt directory configs).taken rt platform order calls).flatMap
        (gained platform i sh) := by
  rw [held_run rt order (create_intact rt directory configs).2 hc
    (fun _ => create_unread hunread rt configs), (create_held rt directory configs).1,
    List.nil_append]

/-- A configured shard holds, in order, the segments that the object store delivered in the
requests since the process started: of every request those up to the first id that was not
delivered. So nothing is ever taken from a file that an earlier request left behind, and what a
shard holds only gets longer. A file that an earlier process left may be taken, so the process must
have found none that can be read. -/
theorem held_eq_gained (rt : Runtime B Text Vec Dist) (platform : Platform B)
    (order : IterOrder String) {directory : Nat → Option Bytes}
    (hunread : UnreadFiles platform directory) (configs : List ShardConfig)
    (calls calls' : List (SearcherCall Vec)) (hc : (i, sh) ∈ configured configs) :
    ((create rt directory configs).run rt platform order calls).held i sh =
        ((create rt directory configs).taken rt platform order calls).flatMap
          (gained platform i sh) ∧
      ((create rt directory configs).run rt platform order calls).held i sh <+:
        ((create rt directory configs).run rt platform order (calls ++ calls')).held i sh := by
  refine ⟨held_eq_flatMap_gained rt platform order hunread configs calls hc, ?_⟩
  have hlater := held_run rt order
    ((create_intact rt directory configs).2.run rt platform order calls) hc
    (Unread.run rt order (fun _ => create_unread hunread rt configs) calls) calls'
  have happend : (create rt directory configs).run rt platform order (calls ++ calls') =
      ((create rt directory configs).run rt platform order calls).run rt platform order calls' :=
    List.foldl_append
  rw [happend, hlater]
  exact List.prefix_append _ _

end Run

/-- The object under 8 is no segment file and stays in the working directory; a later request for it
fails on that file. -/
theorem held_eq_gained_half :
    ((eastProcess [.update halfStore ⟨[7, 8], [], "docs", "east"⟩,
      .update ∅ ⟨[8], [7], "docs", "east"⟩]).held "docs" "east").map Segment.segId = [7] := by
  have hheld := (held_eq_gained (lineRuntime Text id) linePlatform (.insertion _)
    (unreadFiles_empty _) [⟨"docs", "east", unitConfig false⟩]
    [.update halfStore ⟨[7, 8], [], "docs", "east"⟩, .update ∅ ⟨[8], [7], "docs", "east"⟩] []
    List.mem_cons_self).1
  rw [eastProcess, hheld]
  decide +kernel

end SearcherProcess

end Vecodex
