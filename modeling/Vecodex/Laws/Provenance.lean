import Vecodex.App.World
import Vecodex.Laws.RankFusion
import Vecodex.Laws.Replicas
import Vecodex.Laws.Sourced

/-!
# Where answers come from

A document takes a long way from the client that writes it to one that finds it: through the index
of a shard and its merges, a segment file, the object store, the update of a searcher, the search
there, and the fusion of the answers by the coordinator. Whatever fails on the way, nothing is made
up: every id the coordinator ever answers with was accepted by the writer before, for the index that
was searched or for one whose name has the same hash (`answers_accepted`). Two such indexes
share a bucket, and the objects of a bucket are told apart by segment ids alone.
-/

namespace Vecodex

open Lib

variable {B Vec Dist Time : Type}

/-- All files of a bucket contain documents of the bucket only. -/
def StoreWithin (files : Files B) (docs : Nat → Text → Prop) (store : Store) : Prop :=
  ∀ bucket id file, store.lookup (bucket, id) = some file → FileWithin files (docs bucket) file

namespace StoreWithin

variable {files : Files B} {docs docs' : Nat → Text → Prop} {store : Store}

theorem mono (h : StoreWithin files docs store) (hdocs : ∀ b x, docs b x → docs' b x) :
    StoreWithin files docs' store :=
  fun bucket id file hfile => (h bucket id file hfile).mono (hdocs bucket)

/-- An operation whose file belongs into its bucket. -/
theorem apply (h : StoreWithin files docs store) {op : StoreOp}
    (hop : ∀ bucket id file ok, op = .putObject bucket id file ok →
      FileWithin files (docs bucket) file) : StoreWithin files docs (op.apply store) := by
  intro bucket id file hfile
  cases op with
  | putObject bucket' id' file' ok =>
    rw [StoreOp.apply] at hfile
    split at hfile
    · by_cases heq : (bucket, id) = (bucket', id')
      · rw [heq, AList.lookup_insert] at hfile
        cases hfile
        cases heq
        exact hop _ _ _ _ rfl
      · rw [AList.lookup_insert_ne heq] at hfile
        exact h bucket id file hfile
    · exact h bucket id file hfile
  | delObject bucket' id' =>
    rw [StoreOp.apply] at hfile
    by_cases heq : (bucket, id) = (bucket', id')
    · rw [heq, AList.lookup_erase] at hfile
      cases hfile
    · rw [AList.lookup_erase_ne heq] at hfile
      exact h bucket id file hfile

end StoreWithin

/-! ## Searchers -/

namespace SearcherProcess

variable {p : SearcherProcess B} {platform : Platform B} {docs docs' : Nat → Text → Prop}

theorem mem_deliveries {store : Store} {i : String} {ids : List Nat} {s : Segment B Text}
    (h : s ∈ deliveries platform store i ids) :
    ∃ id file rest, store.lookup (platform.hash i, id) = some file ∧
      deserealizeSegment platform.toFiles file = .ok (some s, rest) := by
  induction ids with
  | nil => cases h
  | cons id ids ih =>
    cases hdelivered : delivered platform store i id with
    | none =>
      rw [deliveries_of_none hdelivered] at h
      cases h
    | some s' =>
      rw [deliveries_of_some hdelivered] at h
      rcases List.mem_cons.mp h with rfl | h
      · unfold delivered at hdelivered
        split at hdelivered
        · cases hdelivered
        · next file hfile =>
          split at hdelivered
          · next segment rest hread =>
            split at hdelivered
            · cases hdelivered
              exact ⟨id, file, rest, hfile, hread⟩
            · cases hdelivered
          · cases hdelivered
      · exact ih h

/-- A shard holds only documents of the bucket of its index. -/
structure Truthful (platform : Platform B) (docs : Nat → Text → Prop) (p : SearcherProcess B) :
    Prop where
  unread : p.ended = none → Unread platform p
  blank : Every (fun _ _ => Index.Blank) p
  held : ∀ i sh, ∀ s ∈ p.held i sh, ∀ x, s.index.LiveId x → docs (platform.hash i) x

namespace Truthful

variable [LinearOrder Dist]

omit [LinearOrder Dist] in
theorem create (rt : Runtime B Text Vec Dist) (docs : Nat → Text → Prop)
    {directory : Nat → Option Bytes} (hunread : UnreadFiles platform directory)
    (configs : List ShardConfig) : Truthful platform docs (create rt directory configs) where
  unread _ := create_unread hunread rt configs
  blank := create_every rt directory configs fun _ _ config draws => .create rt config false draws
  held i sh s hs := by
    rw [(create_held rt directory configs).1] at hs
    cases hs

theorem mono (h : Truthful platform docs p) (hdocs : ∀ b x, docs b x → docs' b x) :
    Truthful platform docs' p :=
  ⟨h.unread, h.blank, fun i sh s hs x hx => hdocs _ x (h.held i sh s hs x hx)⟩

/-- What a request brings comes from the object store. -/
theorem serve (h : Truthful platform docs p) (rt : Runtime B Text Vec Dist)
    (order : IterOrder String) {call : SearcherCall Vec}
    (hcall : ∀ store request, call = .update store request →
      StoreWithin platform.toFiles docs store) :
    Truthful platform docs (p.serve rt platform order call) := by
  cases hended : p.ended with
  | some e => rwa [serve_of_ended rt platform order hended]
  | none =>
    have hnames : Every (fun i sh _ => (p.entry i sh).isSome) (p.serve rt platform order call) :=
      Every.serve (fun _ _ _ hindex => Option.isSome_of_eq_some hindex)
        (fun _ _ _ _ _ hold _ => hold) rt order call
    refine ⟨Unread.serve rt order h.unread call,
      h.blank.serve (fun _ _ _ _ _ hblank hpush => hblank.pushSegment hpush) rt order call,
      fun i sh s hs x hx => ?_⟩
    cases hentry : (p.serve rt platform order call).entry i sh with
    | none =>
      rw [SearcherProcess.held, hentry] at hs
      cases hs
    | some index' =>
      -- the entry had an index before the request
      obtain ⟨index, hindex⟩ := Option.isSome_iff_exists.mp (hnames i sh index' hentry)
      have hstock : Stocked [(i, sh)] p := by
        refine ⟨fun j t hjt => ?_, fun j t idx hidx => (h.blank j t idx hidx).rooted⟩
        cases List.mem_singleton.mp hjt
        exact ⟨index, hindex⟩
      rw [held_serve rt order hstock List.mem_cons_self hended (h.unread hended)] at hs
      rcases List.mem_append.mp hs with hs | hs
      · exact h.held i sh s hs x hx
      · cases call with
        | search request => cases hs
        | update store request =>
          rw [gained] at hs
          split at hs
          · next heq =>
            obtain ⟨id, file, rest, hfile, hread⟩ := mem_deliveries hs
            rw [heq.1]
            exact hcall store request rfl _ id file hfile s rest hread x hx
          · cases hs

end Truthful

/-! ## Answers of a searcher -/

variable [LinearOrder Dist]

theorem searchEntries_ok {rt : Runtime B Text Vec Dist} {request : SearchRequest Vec}
    {names : List String} {result ids : List Text}
    (h : (searchEntries rt request names result p).1 = .ok ids) {x : Text} (hx : x ∈ ids) :
    x ∈ result ∨ ∃ sh index found, p.entry request.indexId sh = some index ∧
      index.search rt request.vectorData request.k.toNat = .ok found ∧ x ∈ found := by
  induction names generalizing p result with
  | nil =>
    cases h
    exact Or.inl hx
  | cons t names ih =>
    rw [searchEntries, searchEntry] at h
    cases hentry : (p.use request.indexId t).entry request.indexId t with
    | none =>
      rw [hentry] at h
      cases h
    | some index =>
      rw [hentry] at h
      dsimp only at h
      cases hsearch : index.search rt request.vectorData request.k.toNat with
      | error e =>
        rw [hsearch] at h
        cases h
      | ok found =>
        rw [hsearch] at h
        rcases ih h with hx | hx
        · rcases List.mem_append.mp hx with hx | hx
          · exact Or.inl hx
          · exact Or.inr ⟨t, index, found, hentry, hsearch, hx⟩
        · exact Or.inr hx

/-- An id of an answer was found by a search of one of the shards. -/
theorem mem_of_processSearchRequest {rt : Runtime B Text Vec Dist} {order : IterOrder String}
    {request : SearchRequest Vec} {ids : List Text}
    (h : (p.processSearchRequest rt order request).1 = .ok ids) {x : Text} (hx : x ∈ ids) :
    ∃ sh index found, p.entry request.indexId sh = some index ∧
      index.search rt request.vectorData request.k.toNat = .ok found ∧ x ∈ found := by
  cases hshard : request.shardId with
  | some t =>
    simp only [processSearchRequest, hshard, searchEntry] at h
    have hsame := entry_called p request.indexId t request.indexId t
    rw [called] at hsame
    cases hentry : p.entry request.indexId t with
    | none =>
      rw [hsame, hentry] at h
      cases h
    | some index =>
      rw [hsame, hentry] at h
      exact ⟨t, index, ids, hentry, h, hx⟩
  | none =>
    rw [processSearchRequest_of_none rt order p hshard] at h
    rcases searchEntries_ok h hx with hx | ⟨sh, index, found, hentry, hsearch, hx⟩
    · cases hx
    · refine ⟨sh, index, found, ?_, hsearch, hx⟩
      rwa [entry, table_subscriptTable, ← entry] at hentry

/-- A truthful searcher answers with documents of the bucket. -/
theorem Truthful.answer (h : Truthful platform docs p) {rt : Runtime B Text Vec Dist}
    {order : IterOrder String} {request : SearchRequest Vec} {ids : List Text}
    (hids : (p.processSearchRequest rt order request).1 = .ok ids) {x : Text} (hx : x ∈ ids) :
    docs (platform.hash request.indexId) x := by
  obtain ⟨sh, index, found, hentry, hsearch, hx⟩ := mem_of_processSearchRequest hids hx
  obtain ⟨q, hq, hlive⟩ := Index.live_of_search hsearch hx
  rcases Index.mem_visited.mp hq with hq | rfl
  · refine h.held request.indexId sh (index.seg q) ?_ x hlive
    rw [held_of_entry hentry]
    exact List.mem_map_of_mem hq
  · exact absurd hlive ((h.blank _ _ index hentry).last x)

end SearcherProcess

/-! ## The deployment -/

/-- A searcher that starts finds no segment file that can be read. -/
def WorldEvent.StartsClean (platform : Platform B) : WorldEvent Vec Time → Prop
  | .startSearcher _ directory _ => SearcherProcess.UnreadFiles platform directory
  | _ => True

namespace World

/-- The document was accepted for an index whose bucket this is. -/
def InBucket (platform : Platform B) (accepted : List (String × Text)) (bucket : Nat) (x : Text) :
    Prop :=
  ∃ i, platform.hash i = bucket ∧ (i, x) ∈ accepted

theorem InBucket.mono {platform : Platform B} {accepted accepted' : List (String × Text)}
    (hgrow : ∀ e ∈ accepted, e ∈ accepted') (b : Nat) (x : Text)
    (h : InBucket platform accepted b x) : InBucket platform accepted' b x := by
  obtain ⟨i, hi, hx⟩ := h
  exact ⟨i, hi, hgrow _ hx⟩

/-- After `k` events nothing has been made up anywhere. -/
structure Honest (rt : Runtime B Text Vec Dist) (platform : Platform B) (k : Nat)
    (s : World B Vec Time) : Prop where
  writer : s.writer.Traceable rt k s.accepted
  operations : ∀ ops task request, s.runner = .storing ops task request →
    ∀ bucket id file ok, .putObject bucket id file ok ∈ ops →
      FileWithin platform.toFiles (InBucket platform s.accepted bucket) file
  store : StoreWithin platform.toFiles (InBucket platform s.accepted) s.store
  searchers : ∀ host p, s.searchers host = some p →
    p.Truthful platform (InBucket platform s.accepted)
  responses : ∀ search, s.search = some search → ∀ response ∈ search.searchResponses,
    ∀ x ∈ response, InBucket platform s.accepted (platform.hash search.request.indexId) x
  answers : ∀ request ids, (request, ids) ∈ s.answers → ∀ x ∈ ids,
    InBucket platform s.accepted (platform.hash request.indexId) x

namespace Honest

variable {rt : Runtime B Text Vec Dist} {platform : Platform B} {k : Nat} {s : World B Vec Time}

theorem start (rt : Runtime B Text Vec Dist) (platform : Platform B)
    (indexesConfig : AList fun _ : String => IndexConfig) (env : Env Time) (e : Etcd) :
    Honest rt platform 0 (start rt indexesConfig env e : World B Vec Time) where
  writer := (Writer.Traceable.create rt 0 [] indexesConfig).updateIndexesState env
  operations ops task request h := by cases h
  store bucket id file h := by cases h
  searchers host p h := by cases h
  responses search h := by cases h
  answers request ids h := by cases h

theorem later (h : Honest rt platform k s) : Honest rt platform (k + 1) s :=
  { h with writer := h.writer.mono (Nat.le_succ k) fun _ he => he }

/-! ### The writer -/

/-- A document is accepted after it was put into an index of the name. -/
theorem write [LT Time] [DecidableLT Time] (h : Honest rt platform k s) (env : Env Time)
    (request : WriteRequest Vec) : Honest rt platform (k + 1) (s.write rt env request) := by
  unfold World.write
  split
  · next hended hidle =>
    split
    · exact { h.later with }
    · next writer status hwrite =>
      have hgrow : ∀ e ∈ s.accepted, e ∈ s.accepted ++ accepts request status :=
        fun e he => List.mem_append_left _ he
      refine ⟨?_, ?_, h.store.mono (InBucket.mono hgrow),
        fun host p hp => (h.searchers host p hp).mono (InBucket.mono hgrow),
        fun search hsearch response hr x hx =>
          InBucket.mono hgrow _ x (h.responses search hsearch response hr x hx),
        fun q ids hq x hx => InBucket.mono hgrow _ x (h.answers q ids hq x hx)⟩
      · have hbegin := (h.writer.updateIndexesState env).mono (Nat.le_refl k) hgrow
        rcases Writer.processWriteRequest_cases hwrite with
          ⟨rfl, -⟩ | ⟨i, sh, o, index, gauge, hi, ho, hexec, rfl, rfl⟩
        · exact hbegin.mono (Nat.le_succ k) fun _ he => he
        · obtain ⟨halloc, hname, -⟩ := hbegin.linked i sh o ho
          refine (hbegin.settle halloc hexec ?_ fun c hc => ?_).gauge gauge
          · unfold WriteRequest.edit
            split <;> rfl
          · unfold WriteRequest.edit at hc
            split at hc
            · next hadd =>
              obtain rfl := List.mem_singleton.mp hc
              refine List.mem_append_right _ ?_
              simp only [accepts, hi, if_pos hadd, hname, List.mem_singleton]
            · obtain rfl := List.mem_singleton.mp hc
              trivial
      · intro ops task q hrunner
        rw [hidle] at hrunner
        cases hrunner
  · exact h.later

/-- The segments of a task are those of an object of its index. -/
theorem beginTask (h : Honest rt platform k s) (hrand : ∀ m, rt.rand m < 256 ^ 8)
    (hk : k < 256 ^ 8) : Honest rt platform (k + 1) (s.beginTask rt platform) := by
  unfold World.beginTask
  split
  · next task tasks hended hidle hnext =>
    refine { h.later with writer := h.later.writer.take hnext, operations := ?_ }
    intro ops task' request hrunner bucket id file ok hop
    cases hrunner
    obtain ⟨ran, haccounted⟩ := h.writer.accounted
    obtain ⟨halloc, hname, -⟩ := haccounted.queued task (hnext ▸ List.mem_cons_self)
    rcases List.mem_append.mp hop with hop | hop
    · obtain ⟨entry, hentry, heq⟩ := List.mem_map.mp hop
      cases heq
      refine ((h.writer.objects _ halloc).reads platform.toFiles hrand hk entry.1).mono
        fun x hx => ⟨task.indexId, rfl, ?_⟩
      rwa [hname] at hx
    · obtain ⟨id', -, heq⟩ := List.mem_map.mp hop
      cases heq
  · exact h.later

theorem storeNext (h : Honest rt platform k s) (ok : Bool) :
    Honest rt platform k (s.storeNext ok) := by
  unfold World.storeNext
  split
  · next op ops task request hended hrunner =>
    have hops := h.operations _ task request hrunner
    refine { h with operations := ?_, store := ?_ }
    · intro ops' task' request' heq bucket id file ok' hop
      cases heq
      exact hops bucket id file ok' (List.mem_cons_of_mem _ hop)
    · dsimp only
      split
      · refine h.store.apply fun bucket id file ok' heq => ?_
        exact hops bucket id file ok' (heq ▸ List.mem_cons_self)
      · exact h.store
  · exact h

theorem listHosts (h : Honest rt platform k s) (env : Env Time) :
    Honest rt platform k (s.listHosts env) := by
  unfold World.listHosts
  split
  · exact { h with operations := fun ops task request heq => (by cases heq) }
  · exact h

section Calls

variable [LinearOrder Dist]

/-- A call leaves all searchers truthful when the object store is. -/
theorem deliver (h : Honest rt platform k s) (order : IterOrder String) (carriage : Carriage)
    (host : String) {call : SearcherCall Vec}
    (hcall : ∀ store request, call = .update store request → store = s.store) (host' : String)
    (p : SearcherProcess B)
    (hp : World.deliver rt platform order carriage host call s.searchers host' = some p) :
    p.Truthful platform (InBucket platform s.accepted) := by
  unfold World.deliver at hp
  split at hp
  · exact h.searchers host' p hp
  · by_cases heq : host' = host
    · subst heq
      rw [Function.update_self] at hp
      obtain ⟨q, hq, rfl⟩ := Option.map_eq_some_iff.mp hp
      refine (h.searchers host' q hq).serve rt order fun store request hupdate => ?_
      rw [hcall store request hupdate]
      exact h.store
    · rw [Function.update_of_ne heq] at hp
      exact h.searchers host' p hp

theorem updateNext (h : Honest rt platform k s) (order : IterOrder String) (carriage : Carriage) :
    Honest rt platform k (s.updateNext rt platform order carriage) := by
  unfold World.updateNext
  split
  · exact { h with operations := fun ops task request heq => (by cases heq) }
  · next request host hosts hended hrunner =>
    refine { h with operations := fun ops task request heq => (by cases heq), searchers := ?_ }
    exact h.deliver order carriage host fun store request' heq => (by cases heq; rfl)
  · exact h

/-! ### The coordinator -/

/-- What comes back is the answer of a truthful searcher. -/
theorem reply (h : Honest rt platform k s) {order : IterOrder String} {carriage : Carriage}
    {address : String} {request : SearchRequest Vec} {ids : List Text}
    (hreply : World.reply carriage address
      (fun p => (p.processSearchRequest rt order request).1) s.searchers = .ok ids) {x : Text}
    (hx : x ∈ ids) : InBucket platform s.accepted (platform.hash request.indexId) x := by
  unfold World.reply at hreply
  split at hreply
  · next p hp =>
    split at hreply
    · next answer hended hanswer =>
      cases hreply
      exact (h.searchers address p hp).answer hanswer hx
    · cases hreply
  · cases hreply

variable [Zero Time] [Add Time] [Mul Time] [Div Time] [NatCast Time]

omit [LinearOrder Dist] [Add Time] [Mul Time] [Div Time] [NatCast Time] in
theorem beginSearch (h : Honest rt platform k s) (choices : Choices)
    (request : SearchRequest Vec) : Honest rt platform k (s.beginSearch choices request) := by
  unfold World.beginSearch
  split
  · refine { h with responses := fun search hsearch response hresponse => ?_ }
    cases hsearch
    cases hresponse
  · exact h

theorem askNext (h : Honest rt platform k s) (order : IterOrder String) (d : Doubles Time)
    (carriage : Carriage) (respTime : Time) :
    Honest rt platform k (s.askNext rt platform order d carriage respTime) := by
  unfold World.askNext
  split
  · next choices request shardId address calls searchResponses hsearch =>
    refine { h with searchers := ?_, responses := ?_ }
    · exact h.deliver order carriage address fun store request' heq => (by cases heq)
    · intro search heq response hresponse x hx
      cases heq
      rcases List.mem_append.mp hresponse with hresponse | hresponse
      · exact h.responses _ hsearch response hresponse x hx
      · cases hreply : World.reply carriage address
          (fun p => (p.processSearchRequest rt order request).1) s.searchers with
        | error e =>
          rw [hreply] at hresponse
          cases hresponse
        | ok ids =>
          rw [hreply] at hresponse
          cases List.mem_singleton.mp hresponse
          exact h.reply hreply hx
  · exact h

omit [LinearOrder Dist] [Zero Time] [Add Time] [Mul Time] [Div Time] [NatCast Time] in
theorem endSearch (h : Honest rt platform k s) : Honest rt platform k s.endSearch := by
  unfold World.endSearch
  split
  · next choices request searchResponses hsearch =>
    refine { h with responses := fun search heq => (by cases heq), answers := ?_ }
    intro request' ids hmem x hx
    rcases List.mem_append.mp hmem with hmem | hmem
    · exact h.answers request' ids hmem x hx
    · cases List.mem_singleton.mp hmem
      have hentry := List.mem_of_mem_take (mem_mergeSearcherAnswers.mp hx)
      have hflat := (DocToScore.mem_entries_ofResponses.mp (choices.scoreOrder.mem_arrange.mp
        ((choices.sorting.perm _).mem_iff.mp hentry))).1
      obtain ⟨response, hresponse, hx⟩ := List.mem_flatten.mp hflat
      exact h.responses _ hsearch response hresponse x hx
  · exact h

/-! ### Runs -/

variable [LT Time] [DecidableLT Time]

theorem exec (h : Honest rt platform k s) (hrand : ∀ m, rt.rand m < 256 ^ 8) (hk : k < 256 ^ 8)
    (order : IterOrder String) (d : Doubles Time) {event : WorldEvent Vec Time}
    (hstart : event.StartsClean platform) :
    Honest rt platform (k + 1) (s.exec rt platform order d event) := by
  cases event with
  | write env request => exact h.write env request
  | beginTask => exact h.beginTask hrand hk
  | storeNext ok => exact (h.storeNext ok).later
  | listHosts env => exact (h.listHosts env).later
  | updateNext carriage => exact (h.updateNext order carriage).later
  | restartWriter indexesConfig env =>
    exact { h.later with
      writer := (Writer.Traceable.create rt (k + 1) s.accepted indexesConfig).updateIndexesState env
      operations := fun ops task request heq => (by cases heq) }
  | startSearcher address directory configs =>
    refine { h.later with searchers := fun host p hp => ?_ }
    by_cases heq : host = address
    · subst heq
      cases (Function.update_self host _ s.searchers).symm.trans hp
      exact .create rt _ hstart configs
    · exact h.searchers host p ((Function.update_of_ne heq _ s.searchers).symm.trans hp)
  | stopSearcher address =>
    refine { h.later with searchers := fun host p hp => ?_ }
    by_cases heq : host = address
    · subst heq
      cases (Function.update_self host _ s.searchers).symm.trans hp
    · exact h.searchers host p ((Function.update_of_ne heq _ s.searchers).symm.trans hp)
  | etcdChanged e => exact { h.later with }
  | beginSearch choices request => exact (h.beginSearch choices request).later
  | askNext carriage respTime => exact (h.askNext order d carriage respTime).later
  | endSearch => exact h.endSearch.later

theorem run (h : Honest rt platform k s) (hrand : ∀ m, rt.rand m < 256 ^ 8)
    (order : IterOrder String) (d : Doubles Time) (events : List (WorldEvent Vec Time))
    (hstart : ∀ event ∈ events, event.StartsClean platform)
    (hlen : k + events.length < 256 ^ 8) :
    Honest rt platform (k + events.length) (s.run rt platform order d events) := by
  induction events generalizing k s with
  | nil => exact h
  | cons event events ih =>
    rw [List.length_cons] at hlen ⊢
    rw [Nat.add_comm events.length, ← Nat.add_assoc] at hlen ⊢
    exact ih (h.exec hrand (by omega) order d (hstart event List.mem_cons_self))
      (fun later hlater => hstart later (List.mem_cons_of_mem _ hlater)) hlen

end Calls

end Honest

variable [LinearOrder Dist] [LT Time] [DecidableLT Time]
variable [Zero Time] [Add Time] [Mul Time] [Div Time] [NatCast Time]

/-- In every run of a deployment, in whatever order the processes take turns and whatever fails,
every id that the coordinator answers with was accepted by the writer for the index that was
searched, or for one with the same bucket. Every searcher must start in a directory without a
segment file that can be read: one of another index may be there under an id that is used again. -/
theorem answers_accepted (rt : Runtime B Text Vec Dist) (platform : Platform B)
    (order : IterOrder String) (d : Doubles Time)
    (indexesConfig : AList fun _ : String => IndexConfig) (env : Env Time) (e : Etcd)
    (hrand : ∀ m, rt.rand m < 256 ^ 8) (events : List (WorldEvent Vec Time))
    (hstart : ∀ event ∈ events, event.StartsClean platform) (hlen : events.length < 256 ^ 8)
    {s : World B Vec Time}
    (hrun : (start rt indexesConfig env e).run rt platform order d events = s)
    {request : SearchRequest Vec} {ids : List Text} (hanswer : (request, ids) ∈ s.answers)
    {x : Text} (hx : x ∈ ids) :
    ∃ i, platform.hash i = platform.hash request.indexId ∧ (i, x) ∈ s.accepted := by
  have hhonest := (Honest.start rt platform indexesConfig env e).run hrand order d events
    hstart (by rwa [Nat.zero_add])
  rw [hrun] at hhonest
  exact hhonest.answers request ids hanswer x hx

/-- A document on its way from the writer to an answer; one of two searchers does not reply. -/
def foundWorld : World (List Nat) Nat Nat :=
  (start countingRuntime docsConfig (docsEnv ["east"] ["a"]) twoShards).run countingRuntime
    linePlatform (.insertion _) strokes
    [.startSearcher "a" (fun _ => none) [⟨"docs", "east", unitConfig true⟩],
      .write (docsEnv ["east"] ["a"]) (addRequest 97 10), .beginTask, .storeNext true,
      .listHosts (docsEnv ["east"] ["a"]), .updateNext .answered, .updateNext .answered,
      .beginSearch plainChoices ⟨10, 1, "docs", none⟩, .askNext .lost 1, .askNext .answered 1,
      .endSearch]

theorem answers_accepted_found : ∃ i, linePlatform.hash i = linePlatform.hash "docs" ∧
    (i, letter 97) ∈ foundWorld.accepted := by
  obtain ⟨⟨request, ids⟩, hanswer, hindex, hx⟩ :
      ∃ a ∈ foundWorld.answers, a.1.indexId = "docs" ∧ letter 97 ∈ a.2 := by
    decide +kernel
  rw [← hindex]
  exact answers_accepted countingRuntime linePlatform (.insertion _) strokes docsConfig
    (docsEnv ["east"] ["a"]) twoShards countingRuntime_lt _
    (by simp [WorldEvent.StartsClean, SearcherProcess.unreadFiles_empty]) (by decide) rfl hanswer hx

end World

end Vecodex
