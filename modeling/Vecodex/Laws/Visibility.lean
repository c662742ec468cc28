import Mathlib.Algebra.BigOperators.Group.Finset.Sigma
import Vecodex.Laws.Answers
import Vecodex.Laws.RankFusion
import Vecodex.Laws.Replication
import Vecodex.Laws.Search
import Vecodex.Laws.Sourced

/-!
# What a search finds once the tasks have run

The documents of the searchers are those of the sealed segments of the writer once its queue is
empty (`replicas_agree`). This module follows them to the client. A searcher holds copies of
segments, merged ones beside those they were merged from, and its index keeps the best `k` pairs of
a distance and an id. The pairs come from the rows of the writer's levels, so there are no more of
them than rows were ever added, and with a `k` of that size none is lost, neither in the index
(`Readable.search_all`) nor in the merge of the coordinator.

`settled_documents_found` says what comes out: a search for at least as many documents as there were
events returns the documents of the sealed segments, no others, and each of them once.
-/

namespace Vecodex

open Lib

variable {B Vec Dist Time : Type}

/-! ## The search of one index -/

section Index

variable {rt : Runtime B Text Vec Dist} {metric : Vec → Vec → Dist}

/-- A segment that can be searched, with at most `k` positions. -/
structure Segment.Whole (base : StoringBase rt.faiss) (k : Nat) (s : Segment B Text) : Prop where
  wf : s.index.Wf
  aligned : s.index.Aligned base
  short : s.index.nextId ≤ k

theorem Segment.Whole.mono {base : StoringBase rt.faiss} {k k' : Nat} {s : Segment B Text}
    (h : s.Whole base k) (hle : k ≤ k') : s.Whole base k' :=
  ⟨h.wf, h.aligned, h.short.trans hle⟩

namespace Index

/-- The segments a search visits are there and can be searched. -/
structure Readable (base : StoringBase rt.faiss) (k : Nat) (idx : Index B Text) : Prop where
  rooted : idx.Rooted
  whole : ∀ p ∈ idx.visited, (idx.seg p).Whole base k

namespace Readable

variable {base : StoringBase rt.faiss} {k : Nat} {idx idx' : Index B Text}

theorem mono (h : idx.Readable base k) {k' : Nat} (hle : k ≤ k') : idx.Readable base k' :=
  ⟨h.rooted, fun p hp => (h.whole p hp).mono hle⟩

theorem create (base : StoringBase rt.faiss) (k : Nat) (config : IndexConfig) (draws : Nat) :
    (Index.create rt config false draws : Index B Text).Readable base k where
  rooted p hp := (Shape.create rt config false draws).visited_alloc hp
  whole p _ := by
    rw [create_seg]
    exact ⟨FaissIndex.wf_create rt config.kind, FaissIndex.aligned_create base config.kind,
      Nat.zero_le k⟩

theorem push (h : idx.Readable base k) {segment : Segment B Text}
    (hwhole : segment.Whole base k) (hpush : idx.pushSegment segment = .ok idx') :
    idx'.Readable base k := by
  refine ⟨h.rooted.pushSegment hpush, fun p hp => ?_⟩
  rw [pushSegment_seg hpush]
  split
  · exact hwhole
  · next hne => exact h.whole p (((mem_pushSegment_visited hpush).mp hp).resolve_right hne)

end Readable

section Search

variable [LinearOrder Dist] (base : ExactBase rt.faiss metric) {idx : Index B Text} {k : Nat}

/-- A search for enough results returns all ids the index shows. -/
theorem Readable.search_all (h : idx.Readable base.toStoringBase k) (q : Vec) {m : Nat}
    (hm : k ≤ m) (hcard : (idx.resultSet rt q m).card ≤ m) :
    ∃ ids, idx.search rt q m = .ok ids ∧
      ∀ x, x ∈ ids ↔ ∃ v, idx.Shows base.toStoringBase x v := by
  refine ⟨_, idx.search_eq rt q m, fun x => ?_⟩
  rw [List.mem_map]
  constructor
  · rintro ⟨r, hr, rfl⟩
    obtain ⟨p, hp, hres⟩ := mem_resultSet.mp ((mem_topK_of_card_le hcard).mp hr)
    obtain ⟨pos, v, hrow, -⟩ := Segment.row_of_results base hres
    exact ⟨v, p, hp, pos, hrow⟩
  · rintro ⟨v, p, hp, pos, hrow⟩
    have hwhole := h.whole p hp
    obtain ⟨d, hd⟩ := Segment.results_all base hwhole.wf hwhole.aligned (q := q)
      (hwhole.short.trans hm) ⟨pos, hrow.1⟩
    exact ⟨toLex (d, x), (mem_topK_of_card_le hcard).mpr (mem_resultSet.mpr ⟨p, hp, hd⟩), rfl⟩

/-- An index that shows nothing has no results. -/
theorem resultSet_eq_empty (hnone : ∀ x v, ¬ idx.Shows base.toStoringBase x v) (q : Vec) (m : Nat) :
    idx.resultSet rt q m = ∅ := by
  refine Finset.eq_empty_of_forall_notMem fun r hr => ?_
  obtain ⟨p, hp, hres⟩ := mem_resultSet.mp hr
  obtain ⟨pos, v, hrow, -⟩ := Segment.row_of_results base hres
  exact hnone _ v ⟨p, hp, pos, hrow⟩

/-- An index that shows no rows but those in the levels of another has no more results than the
other has positions. -/
theorem card_resultSet_le_of_shown {w : Index B Text} (hwf : ∀ p, (w.seg p).index.Wf)
    (hcover : ∀ x v, idx.Shows base.toStoringBase x v →
      ∃ p ∈ w.current, (w.seg p).index.Holds base.toStoringBase x v) (q : Vec) (m : Nat) :
    (idx.resultSet rt q m).card ≤ ∑ p ∈ w.owners.toFinset, (w.seg p).index.nextId := by
  -- every result is given by a position of a segment of `w`
  have hrow : ∀ r ∈ idx.resultSet rt q m, ∃ a : Σ _ : Nat, Nat,
      a ∈ w.owners.toFinset.sigma (fun p => Finset.range (w.seg p).index.nextId) ∧
        ∃ v, (w.seg a.1).index.LiveRow base.toStoringBase a.2 (ofLex r).2 v ∧
          (ofLex r).1 = metric q v := by
    intro r hr
    obtain ⟨p, hp, hres⟩ := mem_resultSet.mp hr
    obtain ⟨pos, v, hlive, hd⟩ := Segment.row_of_results base hres
    obtain ⟨p', hp', pos', hlive'⟩ := hcover _ v ⟨p, hp, pos, hlive⟩
    refine ⟨⟨p', pos'⟩, Finset.mem_sigma.mpr ⟨?_, ?_⟩, v, hlive', hd⟩
    · exact List.mem_toFinset.mpr (mem_owners.mpr (.inl hp'))
    · exact Finset.mem_range.mpr (hlive'.1.lt (hwf p'))
  choose! f hf hv using hrow
  have hcard := Finset.card_le_card_of_injOn f hf ?_
  · rw [Finset.card_sigma] at hcard
    simpa only [Finset.card_range] using hcard
  · intro r hr r' hr' heq
    obtain ⟨v, hlive, hd⟩ := hv r hr
    obtain ⟨v', hlive', hd'⟩ := hv r' hr'
    rw [← heq] at hlive'
    have hx : (ofLex r).2 = (ofLex r').2 := Option.some.inj (hlive.1.1.symm.trans hlive'.1.1)
    have hvv : v = v' := Option.some.inj (hlive.2.symm.trans hlive'.2)
    exact ofLex.injective (Prod.ext (by rw [hd, hd', hvv]) hx)

end Search

end Index

end Index

/-! ## Files -/

/-- What is read from the file can be searched. -/
def FileWhole {rt : Runtime B Text Vec Dist} (base : StoringBase rt.faiss) (files : Files B)
    (k : Nat) (file : Bytes) : Prop :=
  ∀ g rest, deserealizeSegment files file = .ok (some g, rest) → g.Whole base k

/-- The file of a segment of the writer. -/
theorem Sourced.whole {rt : Runtime B Text Vec Dist} {base : StoringBase rt.faiss}
    {docs : Text → Prop} {k : Nat} {w : Work B Text} (h : Sourced rt docs k w)
    (halign : AlignedAll base w) (files : Files B) (hrand : ∀ m, rt.rand m < 256 ^ 8)
    (hk : k < 256 ^ 8) (p : Nat) :
    FileWhole base files k (serializeSegment rt files (w.index.seg p)) := by
  intro g rest hg
  obtain ⟨m, hm⟩ := h.drawn p
  have hid : (w.index.seg p).segId < 256 ^ 8 := Nat.lt_of_le_of_lt hm.ge (hrand m)
  have hfits := (h.shape.wf p).fits ((h.bounded.each p).trans_lt hk)
  obtain ⟨g', hread, -, hsame, -⟩ := deserealizeSegment_serializeSegment rt files hid hfits []
  rw [List.append_nil, hg] at hread
  cases hread
  have haligned : g.index.Aligned base := by
    unfold FaissIndex.Aligned
    rw [hsame.index, hsame.nextId]
    exact halign p
  exact ⟨hsame.wf (h.shape.wf p), haligned, hsame.nextId.trans_le (h.bounded.each p)⟩

/-- The objects of the store can be searched. -/
def StoreWhole {rt : Runtime B Text Vec Dist} (base : StoringBase rt.faiss) (files : Files B)
    (k : Nat) (store : Store) : Prop :=
  ∀ key file, store.lookup key = some file → FileWhole base files k file

namespace StoreWhole

variable {rt : Runtime B Text Vec Dist} {base : StoringBase rt.faiss} {files : Files B} {k : Nat}
variable {store : Store}

theorem mono (h : StoreWhole base files k store) {k' : Nat} (hle : k ≤ k') :
    StoreWhole base files k' store :=
  fun key file hfile g rest hg => (h key file hfile g rest hg).mono hle

theorem insert (h : StoreWhole base files k store) (key : Nat × Nat) {file : Bytes}
    (hfile : FileWhole base files k file) : StoreWhole base files k (store.insert key file) := by
  intro key' file' hlookup
  by_cases hkey : key' = key
  · subst hkey
    rw [AList.lookup_insert] at hlookup
    exact Option.some.inj hlookup ▸ hfile
  · rw [AList.lookup_insert_ne hkey] at hlookup
    exact h key' file' hlookup

theorem erase (h : StoreWhole base files k store) (key : Nat × Nat) :
    StoreWhole base files k (store.erase key) := by
  intro key' file' hlookup
  by_cases hkey : key' = key
  · subst hkey
    rw [AList.lookup_erase] at hlookup
    cases hlookup
  · rw [AList.lookup_erase_ne hkey] at hlookup
    exact h key' file' hlookup

/-- The puts and deletions of a task. -/
theorem transfer {platform : Platform B} (h : StoreWhole base platform.toFiles k store)
    (task : Task) {index : Index B Text} (hindex : ∀ p, FileWhole base platform.toFiles k
      (serializeSegment rt platform.toFiles (index.seg p))) :
    StoreWhole base platform.toFiles k (task.transfer rt platform index store) := by
  refine List.foldlRecOn _ _ ?_ fun store hstore id _ => hstore.erase _
  exact List.foldlRecOn _ _ h fun store hstore p _ => hstore.insert _ (hindex p)

end StoreWhole

/-! ## Searchers -/

namespace Searcher

/-- The searcher has the shards of the names, and all of them can be searched. -/
structure Fit {rt : Runtime B Text Vec Dist} (base : StoringBase rt.faiss) (k : Nat)
    (names : List (String × String)) (s : Searcher B) : Prop where
  keys : ∀ i sh, (∃ index, (s.table i).lookup sh = some index) ↔ (i, sh) ∈ names
  readable : ∀ i sh index, (s.table i).lookup sh = some index → index.Readable base k

/-- The names of the shards of a configuration. -/
def configNames (configs : List ShardConfig) : List (String × String) :=
  configs.map fun item => (item.indexId, item.shardId)

namespace Fit

variable {rt : Runtime B Text Vec Dist} {base : StoringBase rt.faiss} {k : Nat}
variable {names : List (String × String)} {s s' : Searcher B}

theorem mono (h : s.Fit base k names) {k' : Nat} (hle : k ≤ k') : s.Fit base k' names :=
  ⟨h.keys, fun i sh index hindex => (h.readable i sh index hindex).mono hle⟩

/-- An index is put into the table. -/
theorem setShard (h : s.Fit base k names) {i sh : String} {index : Index B Text}
    (hindex : index.Readable base k) : (s.setShard i sh index).Fit base k (names ++ [(i, sh)]) := by
  constructor
  · intro j t
    rw [lookup_setShard, List.mem_append, List.mem_singleton, ← h.keys j t, Prod.mk.injEq]
    split
    · next heq => exact iff_of_true ⟨_, rfl⟩ (.inr heq)
    · next hne => exact (or_iff_left hne).symm
  · intro j t found hfound
    rw [lookup_setShard] at hfound
    split at hfound
    · exact Option.some.inj hfound ▸ hindex
    · exact h.readable j t found hfound

theorem create (base : StoringBase rt.faiss) (k : Nat) (configs : List ShardConfig) :
    (Searcher.create rt configs : Searcher B).Fit base k (configNames configs) := by
  have hall : ∀ (configs : List ShardConfig) (names : List (String × String)) (s : Searcher B),
      s.Fit base k names →
      (configs.foldl (addShard rt) s).Fit base k (names ++ configNames configs) := by
    intro configs
    induction configs with
    | nil =>
      intro names s hs
      rw [configNames, List.map_nil, List.append_nil]
      exact hs
    | cons item configs ih =>
      intro names s hs
      have hadd : (addShard rt s item).Fit base k (names ++ [(item.indexId, item.shardId)]) :=
        ⟨(hs.setShard (.create base k item.config s.draws)).keys,
          (hs.setShard (.create base k item.config s.draws)).readable⟩
      have hrest := ih _ _ hadd
      rwa [List.append_assoc] at hrest
  refine hall configs [] { shards := ∅, draws := 0 } ⟨fun i sh => ?_, fun i sh index hindex => ?_⟩
  · exact iff_of_false (fun ⟨_, h⟩ => by cases h) List.not_mem_nil
  · cases hindex

/-- A call that keeps its index searchable. -/
theorem of_call (h : s.Fit base k names) {i sh : String}
    {f : Index B Text → Except Fault (Index B Text)} (hf : ∀ index index',
      index.Readable base k → f index = .ok index' → index'.Readable base k)
    (hcall : s.call i sh f = .ok s') : s'.Fit base k names := by
  obtain ⟨index, index', hlookup, hok, rfl⟩ := call_eq_ok hcall
  have hset : (s.setShard i sh index').Fit base k (names ++ [(i, sh)]) :=
    h.setShard (hf index index' (h.readable i sh index hlookup) hok)
  have hmem : (i, sh) ∈ names := (h.keys i sh).mp ⟨index, hlookup⟩
  refine ⟨fun j t => ?_, hset.readable⟩
  rw [hset.keys, List.mem_append, List.mem_singleton]
  exact or_iff_left_of_imp fun heq => heq ▸ hmem

theorem processUpdateRequest (h : s.Fit base k names) {platform : Platform B} {store : Store}
    (hstore : StoreWhole base platform.toFiles k store) {request : UpdateRequest}
    (hupdate : s.processUpdateRequest platform store request = .ok s') : s'.Fit base k names := by
  obtain ⟨u, hadded, hdeleted⟩ := bind_eq_ok.mp hupdate
  have hpushed : u.Fit base k names := by
    refine foldlM_preserves (P := fun t : Searcher B => t.Fit base k names) ?_ h hadded
    intro t t' id _ ht hpush
    unfold pushAdded at hpush
    split at hpush
    · cases hpush
    · next file hfile =>
      obtain ⟨⟨segment, rest⟩, hread, hcall⟩ := bind_eq_ok.mp hpush
      refine ht.of_call (fun index index' hindex hok => ?_) hcall
      cases segment with
      | none => cases hok
      | some segment => exact hindex.push (hstore _ file hfile segment rest hread) hok
  refine foldlM_preserves (P := fun t : Searcher B => t.Fit base k names) ?_ hpushed hdeleted
  intro t t' id _ ht herase
  refine ht.of_call (fun index index' hindex hok => ?_) herase
  rw [← Except.ok.inj hok, index.eraseSegment_same]
  exact hindex

end Fit

end Searcher

/-! ## Runs -/

/-- The searchers that run are those with a configuration. They have the shards of it, and all of
them can be searched. -/
structure FitSearchers {rt : Runtime B Text Vec Dist} (base : StoringBase rt.faiss) (k : Nat)
    (searchersConfigs : String → Option (List ShardConfig))
    (searchers : String → Option (Searcher B)) : Prop where
  running : ∀ host, (searchers host).isSome = (searchersConfigs host).isSome
  fit : ∀ host configs s, searchersConfigs host = some configs → searchers host = some s →
    s.Fit base k (Searcher.configNames configs)

section FitSearchers

variable {rt : Runtime B Text Vec Dist} {base : StoringBase rt.faiss} {k : Nat}
variable {searchersConfigs : String → Option (List ShardConfig)}
variable {searchers searchers' : String → Option (Searcher B)}

theorem FitSearchers.mono (h : FitSearchers base k searchersConfigs searchers) {k' : Nat}
    (hle : k ≤ k') : FitSearchers base k' searchersConfigs searchers :=
  ⟨h.running, fun host configs s hconfig hs => (h.fit host configs s hconfig hs).mono hle⟩

/-- The searchers after an update. -/
theorem FitSearchers.updateIndex (h : FitSearchers base k searchersConfigs searchers)
    {platform : Platform B} {store : Store} (hstore : StoreWhole base platform.toFiles k store)
    {request : UpdateRequest} {hosts : List String}
    (hupdate : hosts.foldlM (updateIndex platform store request) searchers = .ok searchers') :
    FitSearchers base k searchersConfigs searchers' := by
  refine foldlM_preserves (P := FitSearchers base k searchersConfigs) ?_ h hupdate
  intro u v host _ hu hstep
  unfold Vecodex.updateIndex at hstep
  split at hstep
  · cases hstep
  · next s hs =>
    obtain ⟨s', hs', hv⟩ := bind_eq_ok.mp hstep
    obtain rfl := Except.ok.inj hv
    constructor
    · intro other
      by_cases heq : other = host
      · rw [heq, Function.update_self, ← hu.running host, hs]
        rfl
      · rw [Function.update_of_ne heq]
        exact hu.running other
    · intro other configs t hconfig ht
      by_cases heq : other = host
      · rw [heq, Function.update_self] at ht
        obtain rfl := Option.some.inj ht
        exact (hu.fit host configs s (heq ▸ hconfig) hs).processUpdateRequest hstore hs'
      · rw [Function.update_of_ne heq] at ht
        exact hu.fit other configs t hconfig ht

end FitSearchers

namespace System

/-- What holds after every run of `k` events: the rows of the writer are counted, the objects of
the store can be read and the shards of the searchers can be searched. -/
structure Ready {rt : Runtime B Text Vec Dist} (base : StoringBase rt.faiss) (platform : Platform B)
    (searchersConfigs : String → Option (List ShardConfig)) (k : Nat) (st : System B) : Prop where
  traceable : ∃ docs : List (String × Text), docs.length ≤ k ∧ st.writer.Traceable rt k docs
  aligned : ∀ o, st.writer.objects.Alloc o → AlignedAll base (st.writer.objects.get o).index.rest
  store : StoreWhole base platform.toFiles k st.store
  searchers : FitSearchers base k searchersConfigs st.searchers

namespace Ready

variable {rt : Runtime B Text Vec Dist} {base : StoringBase rt.faiss} {platform : Platform B}
variable {searchersConfigs : String → Option (List ShardConfig)} {k : Nat} {st : System B}

theorem blank (base : StoringBase rt.faiss) (platform : Platform B)
    (indexesConfig : AList fun _ : String => IndexConfig)
    (searchersConfigs : String → Option (List ShardConfig)) :
    (System.blank rt indexesConfig searchersConfigs).Ready base platform searchersConfigs 0 where
  traceable := ⟨[], Nat.le_refl 0, .create rt 0 [] indexesConfig⟩
  aligned o ho := absurd ho (Nat.not_lt_zero o)
  store key file hfile := by cases hfile
  searchers := by
    refine ⟨fun host => Option.isSome_map, fun host configs s hconfig hs => ?_⟩
    obtain ⟨configs', hconfig', rfl⟩ := Option.map_eq_some_iff.mp hs
    obtain rfl := Option.some.inj (hconfig.symm.trans hconfig')
    exact .create base 0 configs

theorem later (h : st.Ready base platform searchersConfigs k) :
    st.Ready base platform searchersConfigs (k + 1) := by
  obtain ⟨docs, hdocs, htraceable⟩ := h.traceable
  exact ⟨⟨docs, hdocs.trans (Nat.le_succ k), htraceable.mono (Nat.le_succ k) fun _ he => he⟩,
    h.aligned, h.store.mono (Nat.le_succ k), h.searchers.mono (Nat.le_succ k)⟩

theorem table (h : st.Ready base platform searchersConfigs k) {env : Env Time} {w : Writer B}
    (hstep : Writer.TableStep rt env st.writer w) :
    ({ st with writer := w } : System B).Ready base platform searchersConfigs k := by
  obtain ⟨docs, hdocs, htraceable⟩ := h.traceable
  exact ⟨⟨docs, hdocs, htraceable.table hstep⟩,
    Writer.forall_objects_step (Q := fun idx => AlignedAll base idx.rest) hstep
      (fun config => .create base config true _) h.aligned, h.store, h.searchers⟩

/-- A call puts at most one document more into an index. -/
theorem settle (h : st.Ready base platform searchersConfigs k) {o : Nat} {index : Index B Text}
    {request : WriteRequest Vec} (ho : st.writer.objects.Alloc o)
    (hexec : ({ (st.writer.objects.get o).index with draws := st.writer.draws } :
      Index B Text).exec rt request.edit.op = .ok index) :
    ({ st with writer := st.writer.settle o index } : System B).Ready base platform
      searchersConfigs (k + 1) := by
  obtain ⟨docs, hdocs, htraceable⟩ := h.traceable
  have hbegin : st.writer.Traceable rt k
      (docs ++ [((st.writer.objects.get o).indexId, request.id)]) :=
    htraceable.mono (Nat.le_refl k) fun _ he => List.mem_append_left _ he
  refine ⟨⟨_, ?_, hbegin.settle ho hexec ?_ fun c hc => ?_⟩, fun o' ho' => ?_,
    h.store.mono (Nat.le_succ k), h.searchers.mono (Nat.le_succ k)⟩
  · rw [List.length_append]
    exact Nat.add_le_add_right hdocs 1
  · unfold WriteRequest.edit
    split <;> rfl
  · unfold WriteRequest.edit at hc
    split at hc
    · obtain rfl := List.mem_singleton.mp hc
      exact List.mem_append_right _ List.mem_cons_self
    · obtain rfl := List.mem_singleton.mp hc
      trivial
  · show AlignedAll base ((st.writer.settle o index).objects.get o').index.rest
    rw [Writer.settle_get]
    split
    · exact (h.aligned o ho).of_runs (Writer.exec_runs (htraceable.counts o ho) hexec)
        fun segment hmem => absurd hmem (not_push_of_edit _ segment)
    · exact h.aligned o' ho'

/-- A task puts segments of one of the objects into the store. -/
theorem delivered (h : st.Ready base platform searchersConfigs k)
    (hrand : ∀ m, rt.rand m < 256 ^ 8) (hk : k < 256 ^ 8) {task : Task} {tasks : List Task}
    (hnext : st.writer.callbackRunner = task :: tasks) {hosts : List String}
    {searchers : String → Option (Searcher B)}
    (hupdate : hosts.foldlM (updateIndex platform
      (task.transfer rt platform (st.writer.objects.get task.object).index st.store)
      (task.request (st.writer.objects.get task.object).index)) st.searchers = .ok searchers) :
    (st.delivered rt platform task tasks searchers).Ready base platform searchersConfigs k := by
  obtain ⟨docs, hdocs, htraceable⟩ := h.traceable
  obtain ⟨ran, haccounted⟩ := htraceable.accounted
  have ho := (haccounted.queued task (hnext ▸ List.mem_cons_self)).1
  have hstore := h.store.transfer task fun p =>
    (htraceable.objects _ ho).whole (h.aligned _ ho) platform.toFiles hrand hk p
  exact ⟨⟨docs, hdocs, htraceable.take hnext⟩, h.aligned, hstore,
    h.searchers.updateIndex hstore hupdate⟩

/-- After every run. -/
theorem of_run [LT Time] [DecidableLT Time] (base : StoringBase rt.faiss)
    (hrand : ∀ m, rt.rand m < 256 ^ 8) {indexesConfig : AList fun _ : String => IndexConfig}
    {env : Env Time} {events : List (Event Vec Time)} (hlen : events.length < 256 ^ 8)
    (hrun : (System.start rt indexesConfig searchersConfigs env).run rt platform events = .ok st) :
    st.Ready base platform searchersConfigs events.length := by
  refine (System.counts (P := fun k u => k < 256 ^ 8 → u.Ready base platform searchersConfigs k)
    hrun ?_ ?_ ?_ ?_ ?_ ?_).2 hlen
  · exact fun _ => .blank base platform indexesConfig searchersConfigs
  · exact fun k u hu hk => (hu (by omega)).later
  · exact fun env' _ k u w' _ hu hstep hk => (hu hk).table hstep
  · intro k u gauge hu hk
    obtain ⟨docs, hdocs, htraceable⟩ := (hu hk).traceable
    exact ⟨⟨docs, hdocs, htraceable.gauge gauge⟩, (hu hk).aligned, (hu hk).store,
      (hu hk).searchers⟩
  · exact fun env' request _ k u o index _ hu ho hexec hk => (hu (by omega)).settle ho hexec
  · intro env' _ k u task tasks searchers _ hu hnext hupdate hk
    exact ((hu (by omega)).delivered hrand (by omega) hnext hupdate).later

end Ready

end System

/-! ## Answers -/

section Answers

variable [LinearOrder Dist] {rt : Runtime B Text Vec Dist} {metric : Vec → Vec → Dist}
variable (base : ExactBase rt.faiss metric)

/-- A searcher answers a request without a shard with the documents of all its shards. -/
theorem Searcher.Fit.answer {k : Nat} {names : List (String × String)} {s : Searcher B}
    (h : s.Fit base.toStoringBase k names) {request : SearchRequest Vec}
    (hshard : request.shardId = none) (hk : k ≤ request.k.toNat)
    (hcard : ∀ sh index, (s.table request.indexId).lookup sh = some index →
      (index.resultSet rt request.vectorData request.k.toNat).card ≤ request.k.toNat)
    (order : IterOrder (Σ _ : String, Index B Text)) :
    ∃ ids, s.processSearchRequest rt order request = .ok ids ∧
      ∀ x, x ∈ ids ↔ ∃ sh v, s.Shows base.toStoringBase request.indexId sh x v := by
  have hsome : ∀ sh, ∃ ids, ∀ index, (s.table request.indexId).lookup sh = some index →
      index.search rt request.vectorData request.k.toNat = .ok ids ∧
        ∀ x, x ∈ ids ↔ ∃ v, index.Shows base.toStoringBase x v := by
    intro sh
    cases hlookup : (s.table request.indexId).lookup sh with
    | none => exact ⟨[], fun index hindex => by cases hindex⟩
    | some index =>
      obtain ⟨ids, hids⟩ := (h.readable _ _ index hlookup).search_all base request.vectorData hk
        (hcard sh index hlookup)
      refine ⟨ids, fun index' hindex => ?_⟩
      obtain rfl := Option.some.inj hindex
      exact hids
  choose answer hanswer using hsome
  have hentry : ∀ shard ∈ order.arrange (s.table request.indexId).entries,
      (s.table request.indexId).lookup shard.1 = some shard.2 := fun shard hmem =>
    AList.mem_lookup_iff.mpr (order.mem_arrange.mp hmem)
  refine ⟨(order.arrange (s.table request.indexId).entries).flatMap fun shard => answer shard.1,
    ?_, fun x => ?_⟩
  · simp only [processSearchRequest, hshard]
    rw [foldlM_searchShard (fun shard hmem => (hanswer shard.1 shard.2 (hentry shard hmem)).1) [],
      List.nil_append]
  · rw [List.mem_flatMap]
    constructor
    · rintro ⟨shard, hmem, hx⟩
      obtain ⟨v, hv⟩ := ((hanswer shard.1 shard.2 (hentry shard hmem)).2 x).mp hx
      exact ⟨shard.1, v, shard.2, hentry shard hmem, hv⟩
    · rintro ⟨sh, v, index, hindex, hv⟩
      exact ⟨⟨sh, index⟩, order.mem_arrange.mpr (AList.mem_lookup_iff.mp hindex),
        ((hanswer sh index hindex).2 x).mpr ⟨v, hv⟩⟩

end Answers

/-- A segment in the levels of the shard holds the document. -/
def Writer.Seals {rt : Runtime B Text Vec Dist} (base : StoringBase rt.faiss) (w : Writer B)
    (indexId shardId : String) (x : Text) : Prop :=
  ∃ o ∈ (w.table indexId).lookup shardId, ∃ p ∈ (w.objects.get o).index.current, ∃ v,
    ((w.objects.get o).index.seg p).index.Holds base x v

/-- The documents of an index are among those that were put. -/
theorem Writer.Traceable.of_seals {rt : Runtime B Text Vec Dist} {base : StoringBase rt.faiss}
    {k : Nat} {docs : List (String × Text)} {w : Writer B} (h : w.Traceable rt k docs)
    {i sh : String} {x : Text} (hx : w.Seals base i sh x) : x ∈ docs.map Prod.snd := by
  obtain ⟨o, ho, p, -, v, pos, hrow⟩ := hx
  have hobject := h.objects o (h.linked i sh o ho).1
  have hlive : ((w.objects.get o).index.seg p).index.LiveId x := ⟨pos, hrow.1⟩
  exact List.mem_map_of_mem (f := Prod.snd) (hobject.ids p x (hlive.mem_ids (hobject.shape.wf p)))

/-- The searcher at the address has the shard. -/
def HasShard (searchersConfigs : String → Option (List ShardConfig))
    (host indexId shardId : String) : Prop :=
  ∃ configs ∈ searchersConfigs host, (indexId, shardId) ∈ Searcher.configNames configs

namespace System

variable [LinearOrder Dist] {rt : Runtime B Text Vec Dist} {metric : Vec → Vec → Dist}

/-- What the searcher at the address answers. There is no answer from an address where none runs,
nor from one that ends. -/
def answer (rt : Runtime B Text Vec Dist) (order : IterOrder (Σ _ : String, Index B Text))
    (st : System B) (request : SearchRequest Vec) (host : String) : Option (List Text) :=
  (st.searchers host).bind fun s => (s.processSearchRequest rt order request).toOption

/-- A searcher whose shards have the rows of the levels answers with their documents. -/
theorem Ready.answer (base : ExactBase rt.faiss metric) {platform : Platform B}
    {searchersConfigs : String → Option (List ShardConfig)} {k : Nat} {st : System B}
    (h : st.Ready base.toStoringBase platform searchersConfigs k) {request : SearchRequest Vec}
    (hshard : request.shardId = none) (hk : k ≤ request.k.toNat) {host : String}
    {configs : List ShardConfig} (hconfig : searchersConfigs host = some configs)
    (hsame : ∀ sh, (request.indexId, sh) ∈ Searcher.configNames configs → ∀ x v,
      Replica base.toStoringBase st.searchers host request.indexId sh x v ↔
        ∃ o ∈ (st.writer.table request.indexId).lookup sh,
          ∃ p ∈ (st.writer.objects.get o).index.current,
            ((st.writer.objects.get o).index.seg p).index.Holds base.toStoringBase x v)
    (order : IterOrder (Σ _ : String, Index B Text)) :
    ∃ ids, st.answer rt order request host = some ids ∧ ∀ x, x ∈ ids ↔
      ∃ sh, (request.indexId, sh) ∈ Searcher.configNames configs ∧
        st.writer.Seals base.toStoringBase request.indexId sh x := by
  obtain ⟨docs, -, htraceable⟩ := h.traceable
  have hruns : (st.searchers host).isSome := by
    rw [h.searchers.running, hconfig]
    rfl
  obtain ⟨s, hs⟩ := Option.isSome_iff_exists.mp hruns
  have hfit := h.searchers.fit host configs s hconfig hs
  have hshows : ∀ sh x v, s.Shows base.toStoringBase request.indexId sh x v ↔
      (request.indexId, sh) ∈ Searcher.configNames configs ∧
        ∃ o ∈ (st.writer.table request.indexId).lookup sh,
          ∃ p ∈ (st.writer.objects.get o).index.current,
            ((st.writer.objects.get o).index.seg p).index.Holds base.toStoringBase x v := by
    intro sh x v
    rw [← replica_of_some hs]
    refine ⟨fun hx => ?_, fun ⟨hname, hx⟩ => (hsame sh hname x v).mpr hx⟩
    obtain ⟨index, hindex, -⟩ := (replica_of_some hs).mp hx
    have hname := (hfit.keys _ sh).mp ⟨index, hindex⟩
    exact ⟨hname, (hsame sh hname x v).mp hx⟩
  -- the results are rows of the one object of the shard
  have hcard : ∀ sh index, (s.table request.indexId).lookup sh = some index →
      (index.resultSet rt request.vectorData request.k.toNat).card ≤ k := by
    intro sh index hindex
    have hrow : ∀ x v, index.Shows base.toStoringBase x v →
        ∃ o ∈ (st.writer.table request.indexId).lookup sh,
          ∃ p ∈ (st.writer.objects.get o).index.current,
            ((st.writer.objects.get o).index.seg p).index.Holds base.toStoringBase x v :=
      fun x v hx => ((hshows sh x v).mp ⟨index, hindex, hx⟩).2
    cases hobject : (st.writer.table request.indexId).lookup sh with
    | none =>
      rw [Index.resultSet_eq_empty base fun x v hx => ?_]
      · exact Nat.zero_le k
      · obtain ⟨o, ho, -⟩ := hrow x v hx
        rw [hobject] at ho
        cases ho
    | some o =>
      have hsourced := htraceable.objects o (htraceable.linked _ sh o hobject).1
      refine (Index.card_resultSet_le_of_shown base hsourced.shape.wf (fun x v hx => ?_) _ _).trans
        hsourced.bounded.total
      obtain ⟨o', ho', hholds⟩ := hrow x v hx
      obtain rfl := Option.some.inj (hobject.symm.trans ho')
      exact hholds
  obtain ⟨ids, hids, hmem⟩ := hfit.answer base hshard hk
    (fun sh index hindex => (hcard sh index hindex).trans hk) order
  refine ⟨ids, ?_, fun x => ?_⟩
  · rw [System.answer, hs, Option.bind_some, hids]
    rfl
  · rw [hmem]
    constructor
    · rintro ⟨sh, v, hx⟩
      obtain ⟨hname, o, ho, p, hp, hholds⟩ := (hshows sh x v).mp hx
      exact ⟨sh, hname, o, ho, p, hp, v, hholds⟩
    · rintro ⟨sh, hname, o, ho, p, hp, v, hholds⟩
      exact ⟨sh, v, (hshows sh x v).mpr ⟨hname, o, ho, p, hp, hholds⟩⟩

end System

/-! ## The coordinator -/

/-- When no more documents are in the responses than are requested, none is cut off. -/
theorem mem_mergeSearcherAnswers_of_le {order : IterOrder (Σ _ : Text, ℚ)}
    {sorting : Sorting (@scoresAbove Text)} {responses : List (List Text)} {docs : List Text}
    {k : Nat} (hdocs : ∀ x ∈ responses.flatten, x ∈ docs) (hlen : docs.length ≤ k) (x : Text) :
    x ∈ mergeSearcherAnswers order sorting responses k ↔ x ∈ responses.flatten := by
  have hperm := (sorting.perm _).trans (order.perm (DocToScore.ofResponses responses).entries)
  have hkeys : ((DocToScore.ofResponses responses).entries.map Sigma.fst).Subperm docs := by
    refine List.subperm_of_subset (DocToScore.ofResponses responses).nodupKeys fun y hy => ?_
    obtain ⟨entry, hentry, rfl⟩ := List.mem_map.mp hy
    exact hdocs _ (DocToScore.mem_entries_ofResponses.mp hentry).1
  have hfew := hkeys.length_le
  rw [List.length_map] at hfew
  rw [mem_mergeSearcherAnswers, List.take_of_length_le (hperm.length_eq.trans_le (hfew.trans hlen)),
    hperm.mem_iff, DocToScore.mem_entries_ofResponses]
  exact and_iff_left rfl

namespace Coordinator

variable [Zero Time] [Add Time] [Mul Time] [Div Time] [NatCast Time]

/-- The coordinator collects the answers of the searchers that answer. -/
theorem foldl_askSearcher_filterMap (d : Doubles Time)
    {net : Nat → String → SearchRequest Vec → Reply Time} {request : SearchRequest Vec}
    {answer : String → Option (List Text)}
    (hnet : ∀ n a, (net n a request).answer = answer a) (l : List (String × String))
    (s : Coordinator Time × List (List Text)) :
    (l.foldl (fun s target => askSearcher d net request target.1 s target.2) s).2 =
      s.2 ++ l.filterMap fun target => answer target.2 := by
  induction l generalizing s with
  | nil => exact (List.append_nil _).symm
  | cons target l ih =>
    have hone : (askSearcher d net request target.1 s target.2).2 =
        s.2 ++ (answer target.2).toList := by
      rw [← hnet s.1.contacts.length]
      rfl
    rw [List.foldl_cons, ih, hone, List.append_assoc, List.filterMap_cons]
    cases answer target.2 <;> rfl

/-- A document is in the responses when a searcher that was reached answers with it. -/
theorem mem_responses (d : Doubles Time) {net : Nat → String → SearchRequest Vec → Reply Time}
    {request : SearchRequest Vec} {answer : String → Option (List Text)}
    (hnet : ∀ n a, (net n a request).answer = answer a) (choices : Choices) (c : Coordinator Time)
    {shards : List String} (hshards : requestedShards c.etcd request = .ok shards) (x : Text) :
    x ∈ (askSearchers d net choices.shardOrder request
        (shards.foldl (updateWithIndexShardInfo request.indexId) c)).2.flatten ↔
      ∃ a ∈ contacted d net choices c request, ∃ ids ∈ answer a, x ∈ ids := by
  rw [askSearchers_eq, foldl_askSearcher_filterMap d hnet, List.nil_append,
    contacted_eq d net hshards, List.mem_flatten]
  simp only [List.mem_filterMap, List.mem_map]
  constructor
  · rintro ⟨ids, ⟨target, htarget, hids⟩, hx⟩
    exact ⟨_, ⟨target, htarget, rfl⟩, ids, hids, hx⟩
  · rintro ⟨_, ⟨target, htarget, rfl⟩, ids, hids, hx⟩
    exact ⟨ids, ⟨target, htarget, hids⟩, hx⟩

end Coordinator

section Found

variable [LT Time] [DecidableLT Time] [LinearOrder Dist]
variable [Zero Time] [Add Time] [Mul Time] [Div Time] [NatCast Time]

open Coordinator

/-- After a run that adds documents to the same shards, with all tasks done, a search for at least
as many documents as there were events returns the documents in the levels of the shards that the
reached searchers have, no others, and each of them once. The searchers that are reached are asked
for their answers at this point, and every task has found them listed for their shards. -/
theorem settled_documents_found {rt : Runtime B Text Vec Dist} {metric : Vec → Vec → Dist}
    (base : ExactBase rt.faiss metric) (platform : Platform B) (hrand : ∀ m, rt.rand m < 256 ^ 8)
    {indexesConfig : AList fun _ : String => IndexConfig}
    {searchersConfigs : String → Option (List ShardConfig)} {env : Env Time}
    {events : List (Event Vec Time)} {st : System B}
    (hadd : ∀ env request, Event.write env request ∈ events → "delete" ∉ request.attributes)
    (hfixed : ∀ e ∈ events, e.env.listShardIds = env.listShardIds)
    (hrun : (System.start rt indexesConfig searchersConfigs env).run rt platform events = .ok st)
    (hd : rt.Distinct st.writer.draws) (hqueue : st.writer.callbackRunner = [])
    (d : Doubles Time) (net : Nat → String → SearchRequest Vec → Reply Time) (choices : Choices)
    (c : Coordinator Time) (order : String → IterOrder (Σ _ : String, Index B Text))
    (request : SearchRequest Vec) (hshard : request.shardId = none)
    (hk : events.length ≤ request.k) (hint : request.k < 2 ^ 31) {shards : List String}
    (hshards : requestedShards c.etcd request = .ok shards)
    (hnet : ∀ n a, (net n a request).answer = st.answer rt (order a) request a)
    (hhosts : ∀ a ∈ contacted d net choices c request, ∀ sh,
      HasShard searchersConfigs a request.indexId sh →
      ∀ env', Event.task env' ∈ events → a ∈ env'.listSearcherHosts request.indexId sh) :
    ∃ ids c', c.processSearchRequest d net choices request = .ok (ids, c') ∧ ids.Nodup ∧
      ∀ x, x ∈ ids ↔ ∃ a ∈ contacted d net choices c request, ∃ sh,
        HasShard searchersConfigs a request.indexId sh ∧
          st.writer.Seals base.toStoringBase request.indexId sh x := by
  have hlen : events.length < 256 ^ 8 := by omega
  have hsize : sizeT request.k = request.k.toNat := by
    unfold sizeT
    omega
  have hready := System.Ready.of_run base.toStoringBase hrand hlen hrun
  obtain ⟨docs, hdocs, htraceable⟩ := hready.traceable
  obtain ⟨hlinked, htabled, horder, hreplicates⟩ :=
    replicates_of_run base.toStoringBase hrand hlen hadd hfixed hrun hd
  have hanswer : ∀ a ∈ contacted d net choices c request, ∀ x,
      (∃ ids ∈ st.answer rt (order a) request a, x ∈ ids) ↔
        ∃ sh, HasShard searchersConfigs a request.indexId sh ∧
          st.writer.Seals base.toStoringBase request.indexId sh x := by
    intro a ha x
    cases hconfig : searchersConfigs a with
    | none =>
      have hnone : st.searchers a = none := by
        rw [← Option.not_isSome_iff_eq_none, hready.searchers.running, hconfig]
        decide
      constructor
      · rintro ⟨ids, hids, -⟩
        rw [System.answer, hnone] at hids
        cases hids
      · rintro ⟨sh, ⟨configs, hconfigs, -⟩, -⟩
        rw [hconfig] at hconfigs
        cases hconfigs
    | some configs =>
      obtain ⟨ids, hids, hmem⟩ := hready.answer base hshard (by omega) hconfig
        (fun sh hname => (hreplicates a request.indexId sh
          (hhosts a ha sh ⟨configs, hconfig, hname⟩)).settled horder hlinked htabled hqueue)
        (order a)
      simp [hids, hmem, HasShard, hconfig]
  have hresponses := mem_responses d hnet choices c hshards
  have hfound : ∀ y ∈ (askSearchers d net choices.shardOrder request
      (shards.foldl (updateWithIndexShardInfo request.indexId) c)).2.flatten,
      y ∈ docs.map Prod.snd := by
    intro y hy
    obtain ⟨a, ha, hy⟩ := (hresponses y).mp hy
    obtain ⟨sh, -, hseals⟩ := (hanswer a ha y).mp hy
    exact htraceable.of_seals hseals
  have hfew : (docs.map Prod.snd).length ≤ sizeT request.k := by
    rw [hsize, List.length_map]
    omega
  refine ⟨_, _, processSearchRequest_of_ok d net hshards, nodup_mergeSearcherAnswers _ _ _ _,
    fun x => ?_⟩
  rw [mem_mergeSearcherAnswers_of_le hfound hfew, hresponses]
  exact exists_congr fun a => and_congr_right fun ha => hanswer a ha x

end Found

/-- The one searcher of `docsSearchers` is listed. -/
def hostListed : Etcd := (Etcd.empty (.insertion _)).addSearcherHost "docs" "east" "host"

/-- The searchers answer as they do in the state. -/
def lateNet (st : System (List Nat)) (_ : Nat) (a : String) (request : SearchRequest Nat) :
    Reply Nat :=
  ⟨st.answer countingRuntime (.insertion _) request a, 0⟩

theorem settled_documents_found_late :
    ∃ st, (System.start countingRuntime docsConfig docsSearchers (docsEnv ["east"] ["host"])).run
        countingRuntime linePlatform lateTasks = .ok st ∧ st.writer.callbackRunner = [] ∧
      ∃ ids c', (Coordinator.create hostListed).processSearchRequest strokes (lateNet st)
          plainChoices ⟨15, 5, "docs", none⟩ = .ok (ids, c') ∧ ids.Nodup ∧
        ∀ x, x ∈ ids ↔ ∃ a ∈ Coordinator.contacted strokes (lateNet st) plainChoices
          (Coordinator.create hostListed) ⟨15, 5, "docs", none⟩, ∃ sh,
            HasShard docsSearchers a "docs" sh ∧ st.writer.Seals countingBase "docs" sh x := by
  obtain ⟨st, hrun, hqueue, hdraws⟩ : ∃ st, (System.start countingRuntime docsConfig docsSearchers
      (docsEnv ["east"] ["host"])).run countingRuntime linePlatform lateTasks = .ok st ∧
      st.writer.callbackRunner = [] ∧ st.writer.draws = 4 := exists_ok (by decide +kernel)
  have henv : ∀ e ∈ lateTasks, e.env = docsEnv ["east"] ["host"] := by
    intro e he
    simp only [lateTasks, List.mem_cons, List.not_mem_nil, or_false] at he
    rcases he with rfl | rfl | rfl | rfl | rfl <;> rfl
  have hshards : Coordinator.requestedShards (Coordinator.create hostListed : Coordinator Nat).etcd
      (⟨15, 5, "docs", none⟩ : SearchRequest Nat) = .ok ["east"] := by decide +kernel
  refine ⟨st, hrun, hqueue, settled_documents_found (flatBase_exact lineMetric) linePlatform
    countingRuntime_lt (fun env request he => ?_)
    (fun e he => congrArg Env.listShardIds (henv e he)) hrun (hdraws ▸ countingRuntime_distinct)
    hqueue strokes (lateNet st) plainChoices (Coordinator.create hostListed)
    (fun _ => .insertion _) ⟨15, 5, "docs", none⟩ rfl (by decide) (by decide) hshards
    (fun _ _ => rfl) fun a _ sh hshard env' he => ?_⟩
  · simp only [lateTasks, List.mem_cons, Event.write.injEq, reduceCtorEq, List.not_mem_nil,
      or_false] at he
    rcases he with ⟨-, rfl⟩ | ⟨-, rfl⟩ <;> decide
  · obtain ⟨configs, hconfigs, -⟩ := hshard
    obtain ⟨rfl, -⟩ := Option.ite_none_right_eq_some.mp hconfigs
    rw [show env' = docsEnv ["east"] ["host"] from henv _ he]
    exact List.mem_cons_self

end Vecodex
