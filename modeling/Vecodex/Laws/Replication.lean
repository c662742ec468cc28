import Vecodex.Laws.Archive
import Vecodex.Laws.Objects

/-!
# The documents of the searchers

A task puts the segments of its call into the store before it sends their ids to the searchers, and
deletes no id that it sends. So a searcher finds every object it fetches, whatever has happened to
the segments since the call (`replicas_agree`, first part).

A searcher keeps all segments it ever fetched. Its documents are those of the segments in the
levels of the writer, up to what later calls still hand over (`Served`): a segment that was merged
away or grew in between is older or newer than the call says, but all its rows are in the levels.
When the queue is empty the documents are the same (`replicas_agree`, second part).
-/

namespace Vecodex

open Lib

variable {B Vec Dist Time : Type}

/-! ## Updates of a searcher -/

section Searcher

variable {rt : Runtime B Text Vec Dist} {base : StoringBase rt.faiss}

/-- A segment that a search visits holds the row. -/
def Index.Shows (base : StoringBase rt.faiss) (idx : Index B Text) (x : Text) (v : Vec) : Prop :=
  ∃ p ∈ idx.visited, (idx.seg p).index.Holds base x v

/-- The segments a search visits are there. -/
def Index.Rooted (idx : Index B Text) : Prop := ∀ p ∈ idx.visited, idx.heap.Alloc p

theorem Index.Rooted.pushSegment {idx idx' : Index B Text} {segment : Segment B Text}
    (hroot : idx.Rooted) (h : idx.pushSegment segment = .ok idx') : idx'.Rooted := by
  have hheap : idx'.heap = idx.heap.alloc segment := by
    obtain ⟨levels, -, rfl⟩ := Index.pushSegment_eq_ok h
    rfl
  intro p hp
  rw [hheap]
  rcases (Index.mem_pushSegment_visited h).mp hp with hp | rfl
  · exact Nat.lt_succ_of_lt (hroot p hp)
  · exact Nat.lt_succ_self _

/-- A pushed segment adds its rows. -/
theorem Index.pushSegment_shows (base : StoringBase rt.faiss) {idx idx' : Index B Text}
    {segment : Segment B Text} (hroot : idx.Rooted) (h : idx.pushSegment segment = .ok idx') :
    idx'.Rooted ∧
      ∀ x v, idx'.Shows base x v ↔ idx.Shows base x v ∨ segment.index.Holds base x v := by
  have hseg := Index.pushSegment_seg h
  have hvisited : ∀ p, p ∈ idx'.visited ↔ p ∈ idx.visited ∨ p = idx.heap.next := fun _ =>
    Index.mem_pushSegment_visited h
  refine ⟨hroot.pushSegment h, fun x v => ?_⟩
  constructor
  · rintro ⟨p, hp, hholds⟩
    rw [hseg] at hholds
    rcases (hvisited p).mp hp with hp | rfl
    · rw [if_neg (Nat.ne_of_lt (hroot p hp))] at hholds
      exact Or.inl ⟨p, hp, hholds⟩
    · rw [if_pos rfl] at hholds
      exact Or.inr hholds
  · rintro (⟨p, hp, hholds⟩ | hholds)
    · refine ⟨p, (hvisited p).mpr (Or.inl hp), ?_⟩
      rwa [hseg, if_neg (Nat.ne_of_lt (hroot p hp))]
    · refine ⟨idx.heap.next, (hvisited _).mpr (Or.inr rfl), ?_⟩
      rwa [hseg, if_pos rfl]

namespace Searcher

/-- A shard of the searcher holds the row. -/
def Shows (base : StoringBase rt.faiss) (s : Searcher B) (indexId shardId : String) (x : Text)
    (v : Vec) : Prop :=
  ∃ index ∈ (s.table indexId).lookup shardId, index.Shows base x v

def Rooted (s : Searcher B) : Prop :=
  ∀ indexId shardId, ∀ index ∈ (s.table indexId).lookup shardId, index.Rooted

theorem shows_of_lookup {s : Searcher B} {i sh : String} {index : Index B Text}
    (h : (s.table i).lookup sh = some index) {x : Text} {v : Vec} :
    s.Shows base i sh x v ↔ index.Shows base x v := by
  simp [Shows, h]

theorem lookup_setShard (s : Searcher B) (i sh : String) (index : Index B Text) (j t : String) :
    ((s.setShard i sh index).table j).lookup t =
      if j = i ∧ t = sh then some index else (s.table j).lookup t :=
  lookup_insert_insert s.shards i sh index j t

theorem call_eq_ok {s s' : Searcher B} {i sh : String}
    {f : Index B Text → Except Fault (Index B Text)} (h : s.call i sh f = .ok s') :
    ∃ index index', (s.table i).lookup sh = some index ∧ f index = .ok index' ∧
      s' = s.setShard i sh index' := by
  unfold call at h
  split at h
  · cases h
  · next index hlookup =>
    obtain ⟨index', hf, hs'⟩ := bind_eq_ok.mp h
    exact ⟨index, index', hlookup, hf, (Except.ok.inj hs').symm⟩

theorem call_eq_error {s : Searcher B} {i sh : String}
    {f : Index B Text → Except Fault (Index B Text)} {e : Fault} (h : s.call i sh f = .error e) :
    e = .nullIndex ∨ ∃ index, f index = .error e := by
  unfold call at h
  split at h
  · exact Or.inl (Except.error.inj h).symm
  · next index _ =>
    rcases bind_eq_error.mp h with hf | ⟨index', -, hret⟩
    · exact Or.inr ⟨index, hf⟩
    · cases hret

/-- The searcher took rows into one of its shards. -/
structure Gains (base : StoringBase rt.faiss) (indexId shardId : String)
    (rows : Text → Vec → Prop) (s s' : Searcher B) : Prop where
  rooted : s'.Rooted
  elsewhere : ∀ j t, ¬ (j = indexId ∧ t = shardId) →
    (s'.table j).lookup t = (s.table j).lookup t
  shows : ∀ x v, s'.Shows base indexId shardId x v ↔ s.Shows base indexId shardId x v ∨ rows x v

namespace Gains

variable {i sh : String} {s s' s'' : Searcher B} {rows rows' : Text → Vec → Prop}

theorem refl (hroot : s.Rooted) : Gains base i sh (fun _ _ => False) s s :=
  ⟨hroot, fun _ _ _ => rfl, fun _ _ => (or_false _).symm.to_iff⟩

theorem trans (h : Gains base i sh rows s s') (h' : Gains base i sh rows' s' s'') :
    Gains base i sh (fun x v => rows x v ∨ rows' x v) s s'' :=
  ⟨h'.rooted, fun j t hne => (h'.elsewhere j t hne).trans (h.elsewhere j t hne),
    fun x v => by rw [h'.shows, h.shows, or_assoc]⟩

/-- A call on the shard whose new index has the rows more. -/
theorem of_call {f : Index B Text → Except Fault (Index B Text)} (hroot : s.Rooted)
    (hf : ∀ index index', index.Rooted → f index = .ok index' → index'.Rooted ∧
      ∀ x v, index'.Shows base x v ↔ index.Shows base x v ∨ rows x v)
    (h : s.call i sh f = .ok s') : Gains base i sh rows s s' := by
  obtain ⟨index, index', hlookup, hcall, rfl⟩ := call_eq_ok h
  obtain ⟨hroot', hshows⟩ := hf index index' (hroot i sh index hlookup) hcall
  refine ⟨fun j t found hfound => ?_, fun j t hne => ?_, fun x v => ?_⟩
  · rw [lookup_setShard] at hfound
    split at hfound
    · rw [← Option.some.inj hfound]
      exact hroot'
    · exact hroot j t found hfound
  · rw [lookup_setShard, if_neg hne]
  · have hnew : ((s.setShard i sh index').table i).lookup sh = some index' := by
      rw [lookup_setShard, if_pos ⟨rfl, rfl⟩]
    rw [shows_of_lookup hnew, hshows, shows_of_lookup hlookup]

end Gains

variable {platform : Platform B} {store : Store} {request : UpdateRequest}

/-- The rows of the object under the id. -/
def Fetched (base : StoringBase rt.faiss) (platform : Platform B) (store : Store)
    (request : UpdateRequest) (id : Nat) (x : Text) (v : Vec) : Prop :=
  ∃ file ∈ store.lookup (platform.hash request.indexId, id),
    Vecodex.Shows base platform.toFiles file x v

theorem pushAdded_gains (base : StoringBase rt.faiss) {s s' : Searcher B} (hroot : s.Rooted)
    {id : Nat} (h : s.pushAdded platform store request id = .ok s') :
    Gains base request.indexId request.shardId (Fetched base platform store request id) s s' := by
  unfold pushAdded at h
  split at h
  · cases h
  · next file hfile =>
    obtain ⟨⟨segment, rest⟩, hread, hcall⟩ := bind_eq_ok.mp h
    refine .of_call hroot (fun index index' hindex hpush => ?_) hcall
    cases segment with
    | none => cases hpush
    | some segment =>
      obtain ⟨hroot', hshows⟩ := Index.pushSegment_shows base hindex hpush
      refine ⟨hroot', fun x v => ?_⟩
      rw [hshows, ← shows_of_ok hread]
      simp [Fetched, hfile]

theorem eraseDeleted_gains {s s' : Searcher B} (hroot : s.Rooted) {id : Nat}
    (h : s.eraseDeleted request id = .ok s') :
    Gains base request.indexId request.shardId (fun _ _ => False) s s' := by
  refine .of_call hroot (fun index index' hindex hsame => ?_) h
  rw [← Except.ok.inj hsame, index.eraseSegment_same]
  exact ⟨hindex, fun x v => (or_false _).symm.to_iff⟩

/-- The first loop of an update. -/
theorem foldlM_pushAdded_gains (base : StoringBase rt.faiss) {ids : List Nat} {s s' : Searcher B}
    (hroot : s.Rooted) (h : ids.foldlM (pushAdded platform store request) s = .ok s') :
    Gains base request.indexId request.shardId
      (fun x v => ∃ id ∈ ids, Fetched base platform store request id x v) s s' := by
  induction ids generalizing s with
  | nil =>
    cases h
    simpa using Gains.refl hroot
  | cons id ids ih =>
    rw [List.foldlM_cons] at h
    obtain ⟨t, ht, h⟩ := bind_eq_ok.mp h
    have hgains := pushAdded_gains base hroot ht
    simpa using hgains.trans (ih hgains.rooted h)

/-- An update adds the rows of the objects it names. -/
theorem processUpdateRequest_gains (base : StoringBase rt.faiss) {s s' : Searcher B}
    (hroot : s.Rooted) (h : s.processUpdateRequest platform store request = .ok s') :
    Gains base request.indexId request.shardId
      (fun x v => ∃ id ∈ request.added, Fetched base platform store request id x v) s s' := by
  obtain ⟨u, hadded, hdeleted⟩ := bind_eq_ok.mp h
  have hgains := foldlM_pushAdded_gains base hroot hadded
  have herase := foldlM_preserves
    (P := fun t => Gains base request.indexId request.shardId (fun _ _ => False) u t)
    (fun t t' id _ ht hstep => by simpa using ht.trans (eraseDeleted_gains ht.rooted hstep))
    (.refl hgains.rooted) hdeleted
  simpa using hgains.trans herase

/-- An update whose objects are all there does not miss one. -/
theorem processUpdateRequest_ne_missing (s : Searcher B)
    (hfiles : ∀ id ∈ request.added, ∃ file g,
      store.lookup (platform.hash request.indexId, id) = some file ∧
      deserealizeSegment platform.toFiles file = .ok (some g, [])) :
    s.processUpdateRequest platform store request ≠ .error .missingObject := by
  intro herror
  rcases bind_eq_error.mp herror with hadded | ⟨u, -, hdeleted⟩
  · refine foldlM_ne_error (P := fun _ => True) (fun _ _ _ _ _ _ => trivial) ?_ trivial hadded
    intro t id hid _ hpush
    obtain ⟨file, g, hlookup, hread⟩ := hfiles id hid
    unfold pushAdded at hpush
    rw [hlookup] at hpush
    dsimp only at hpush
    rw [hread, ok_bind] at hpush
    rcases call_eq_error hpush with heq | ⟨index, hindex⟩
    · cases heq
    · cases Index.pushSegment_eq_error hindex
  · refine foldlM_ne_error (P := fun _ => True) (fun _ _ _ _ _ _ => trivial) ?_ trivial hdeleted
    intro t id _ _ herase
    rcases call_eq_error herase with heq | ⟨index, hindex⟩
    · cases heq
    · cases hindex

/-- A new searcher has no documents. -/
theorem create_shows (rt : Runtime B Text Vec Dist) (base : StoringBase rt.faiss)
    (configs : List ShardConfig) :
    (create rt configs : Searcher B).Rooted ∧
      ∀ i sh x v, ¬ (create rt configs : Searcher B).Shows base i sh x v := by
  have hall : ∀ (configs : List ShardConfig) (s : Searcher B),
      (∀ i sh, ∀ index ∈ (s.table i).lookup sh, index.Rooted ∧ ∀ x v, ¬ index.Shows base x v) →
      ∀ i sh, ∀ index ∈ ((configs.foldl (addShard rt) s).table i).lookup sh,
        index.Rooted ∧ ∀ x v, ¬ index.Shows base x v := by
    intro configs
    induction configs with
    | nil => exact fun _ h => h
    | cons item configs ih =>
      intro s hs
      refine ih (addShard rt s item) fun i sh index hindex => ?_
      replace hindex : index ∈ ((s.setShard item.indexId item.shardId
        (Index.create rt item.config false s.draws)).table i).lookup sh := hindex
      rw [lookup_setShard] at hindex
      split at hindex
      · obtain rfl := Option.some.inj hindex
        refine ⟨fun p hp => ?_, ?_⟩
        · exact (Shape.create rt item.config false s.draws).visited_alloc hp
        · rintro x v ⟨p, -, hholds⟩
          rw [Index.create_seg] at hholds
          exact FaissIndex.not_holds_create base item.config.kind x v hholds
      · exact hs i sh index hindex
  have hcreate := hall configs { shards := ∅, draws := 0 } fun i sh index hindex => by cases hindex
  exact ⟨fun i sh index hindex => (hcreate i sh index hindex).1,
    fun i sh x v ⟨index, hindex, hshows⟩ => (hcreate i sh index hindex).2 x v hshows⟩

end Searcher

end Searcher

/-! ## Updates of all searchers -/

section Searchers

variable {rt : Runtime B Text Vec Dist}

/-- The searcher at the address holds the row in the shard. -/
def Replica (base : StoringBase rt.faiss) (searchers : String → Option (Searcher B))
    (host indexId shardId : String) (x : Text) (v : Vec) : Prop :=
  ∃ searcher ∈ searchers host, searcher.Shows base indexId shardId x v

variable {platform : Platform B} {store : Store} {request : UpdateRequest}

theorem replica_of_some {base : StoringBase rt.faiss} {searchers : String → Option (Searcher B)}
    {host i sh : String} {s : Searcher B} (h : searchers host = some s) {x : Text} {v : Vec} :
    Replica base searchers host i sh x v ↔ s.Shows base i sh x v := by
  simp [Replica, h]

/-- The searchers at the given addresses took rows into one of their shards. -/
structure Spreads (base : StoringBase rt.faiss) (indexId shardId : String)
    (rows : Text → Vec → Prop) (hosts : List String)
    (searchers searchers' : String → Option (Searcher B)) : Prop where
  rooted : ∀ host, ∀ s ∈ searchers' host, s.Rooted
  elsewhere : ∀ host i sh, ¬ (i = indexId ∧ sh = shardId) → ∀ x v,
    Replica base searchers' host i sh x v ↔ Replica base searchers host i sh x v
  shows : ∀ host x v, Replica base searchers' host indexId shardId x v ↔
    Replica base searchers host indexId shardId x v ∨ host ∈ hosts ∧ rows x v

/-- One searcher of them takes the rows. -/
theorem Spreads.of_gains {base : StoringBase rt.faiss} {i sh : String} {rows : Text → Vec → Prop}
    {first : String} {searchers : String → Option (Searcher B)} {s s' : Searcher B}
    (hroot : ∀ host, ∀ s ∈ searchers host, s.Rooted) (hs : searchers first = some s)
    (h : Searcher.Gains base i sh rows s s') :
    Spreads base i sh rows [first] searchers (Function.update searchers first (some s')) := by
  have hself : Function.update searchers first (some s') first = some s' :=
    Function.update_self ..
  have hother : ∀ host, host ≠ first →
      Function.update searchers first (some s') host = searchers host := fun _ hne =>
    Function.update_of_ne hne ..
  refine ⟨fun host t ht => ?_, fun host j t hne x v => ?_, fun host x v => ?_⟩
  · by_cases heq : host = first
    · rw [heq, hself] at ht
      exact Option.some.inj ht ▸ h.rooted
    · exact hroot host t (hother host heq ▸ ht)
  · by_cases heq : host = first
    · rw [heq, replica_of_some hself, replica_of_some hs]
      unfold Searcher.Shows
      rw [h.elsewhere j t hne]
    · unfold Replica
      rw [hother host heq]
  · by_cases heq : host = first
    · rw [heq, replica_of_some hself, replica_of_some hs, h.shows]
      simp
    · unfold Replica
      rw [hother host heq]
      simp [heq]

/-- The searchers after an update of those at the given addresses. -/
theorem updateIndex_spreads (base : StoringBase rt.faiss) (hosts : List String)
    {searchers searchers' : String → Option (Searcher B)}
    (hroot : ∀ host, ∀ s ∈ searchers host, s.Rooted)
    (h : hosts.foldlM (updateIndex platform store request) searchers = .ok searchers') :
    Spreads base request.indexId request.shardId
      (fun x v => ∃ id ∈ request.added, Searcher.Fetched base platform store request id x v) hosts
      searchers searchers' := by
  induction hosts generalizing searchers with
  | nil =>
    cases h
    exact ⟨hroot, fun _ _ _ _ _ _ => Iff.rfl, fun _ _ _ => by simp⟩
  | cons first hosts ih =>
    rw [List.foldlM_cons] at h
    obtain ⟨middle, hfirst, hrest⟩ := bind_eq_ok.mp h
    unfold updateIndex at hfirst
    split at hfirst
    · cases hfirst
    · next s hs =>
      obtain ⟨s', hupdate, hmiddle⟩ := bind_eq_ok.mp hfirst
      obtain rfl := Except.ok.inj hmiddle
      have hone := Spreads.of_gains hroot hs
        (Searcher.processUpdateRequest_gains base (hroot first s hs) hupdate)
      have hmore := ih hone.rooted hrest
      refine ⟨hmore.rooted, fun host i sh hne x v => ?_, fun host x v => ?_⟩
      · rw [hmore.elsewhere host i sh hne, hone.elsewhere host i sh hne]
      · rw [hmore.shows, hone.shows, List.mem_singleton, List.mem_cons, or_assoc, or_and_right]

theorem updateIndex_ne_missing (hosts : List String) (searchers : String → Option (Searcher B))
    (hfiles : ∀ id ∈ request.added, ∃ file g,
      store.lookup (platform.hash request.indexId, id) = some file ∧
      deserealizeSegment platform.toFiles file = .ok (some g, [])) :
    hosts.foldlM (updateIndex platform store request) searchers ≠ .error .missingObject := by
  refine foldlM_ne_error (P := fun _ => True) (fun _ _ _ _ _ _ => trivial) ?_ trivial
  intro u host _ _ herror
  unfold updateIndex at herror
  split at herror
  · cases herror
  · next s _ =>
    rcases bind_eq_error.mp herror with hupdate | ⟨s', -, hret⟩
    · exact s.processUpdateRequest_ne_missing hfiles hupdate
    · cases hret

end Searchers

/-! ## Delivered and pending documents -/

/-- The rows of a replica, and the calls of an index that are still to be delivered to it. -/
structure Served {rt : Runtime B Text Vec Dist} (base : StoringBase rt.faiss)
    (replica : Text → Vec → Prop) (n : Nat) (w : Work B Text) : Prop where
  aligned : AlignedAll base w
  /-- What a segment holds that is not open, the levels hold. -/
  covered : ∀ q, w.index.heap.Alloc q → q ≠ w.index.last → ∀ x v,
    (w.index.seg q).index.Holds base x v →
      ∃ p ∈ w.index.current, (w.index.seg p).index.Holds base x v
  sound : ∀ x v, replica x v → ∃ p ∈ w.index.current, (w.index.seg p).index.Holds base x v
  complete : ∀ p ∈ w.index.current, ∀ x v, (w.index.seg p).index.Holds base x v →
    replica x v ∨ ∃ q, w.Pending n q ∧ (w.index.seg q).index.Holds base x v

namespace Served

variable {rt : Runtime B Text Vec Dist} {base : StoringBase rt.faiss} {platform : Platform B}
variable {replica replica' : Text → Vec → Prop} {n : Nat} {w w' : Work B Text}

theorem create (base : StoringBase rt.faiss) (config : IndexConfig) (draws : Nat)
    (hnone : ∀ x v, ¬ replica x v) :
    Served base replica 0 (Index.create rt config true draws : Index B Text).rest where
  aligned := .create base config true draws
  covered q _ _ x v hholds := by
    replace hholds :
      ((Index.create rt config true draws : Index B Text).seg q).index.Holds base x v := hholds
    rw [Index.create_seg] at hholds
    exact absurd hholds (FaissIndex.not_holds_create base config.kind x v)
  sound x v h := absurd h (hnone x v)
  complete p hp := by cases hp

theorem congr (h : Served base replica n w) (hsame : ∀ x v, replica' x v ↔ replica x v) :
    Served base replica' n w :=
  ⟨h.aligned, h.covered, fun x v hreplica => h.sound x v ((hsame x v).mp hreplica),
    fun p hp x v hholds => (h.complete p hp x v hholds).imp_left (hsame x v).mpr⟩

theorem drawn {idx : Index B Text} (h : Served base replica n idx.rest) (draws : Nat) :
    Served base replica n ({ idx with draws := draws } : Index B Text).rest :=
  ⟨h.aligned, h.covered, h.sound, h.complete⟩

theorem grow (h : Served base replica n w) (hgrown : Grown rt platform w)
    (hn : n ≤ w.index.calls.length) {rows : List (Text × Vec)} (hgrowth : Growth rt rows w w') :
    Served base replica n w' := by
  have hlevels : ∀ {x v}, (∃ p ∈ w.index.current, (w.index.seg p).index.Holds base x v) →
      ∃ p ∈ w'.index.current, (w'.index.seg p).index.Holds base x v :=
    hgrowth.levels_mono hgrown.shape h.aligned
  constructor
  · exact h.aligned.grow hgrowth
  · intro q hq hlast x v hholds
    rcases hgrowth.owner_cases hgrown.shape hq with ⟨hold, hne, hseg⟩ | hcurrent | heq
    · rw [hseg] at hholds
      exact hlevels (h.covered q hold hne x v hholds)
    · exact ⟨q, hcurrent, hholds⟩
    · exact absurd heq hlast
  · exact fun x v hreplica => hlevels (h.sound x v hreplica)
  · intro p hp x v hholds
    rcases hgrowth.current_cases hgrown.shape hp with ⟨hp, hseg⟩ | hpending
    · rw [hseg] at hholds
      refine (h.complete p hp x v hholds).imp_right ?_
      rintro ⟨q, hq, hholds⟩
      have halloc := (hgrown.feed.pending_sealed q (hq.mono (Nat.zero_le n))).1
      exact ⟨q, hgrowth.pending_mono hn hq,
        hgrowth.holds_mono hgrown.shape h.aligned halloc hholds⟩
    · exact Or.inr ⟨p, hpending n, hholds⟩

/-- A call is delivered: the replica takes the segments it hands over as they are now. -/
theorem deliver (h : Served base replica n w) (hgrown : Grown rt platform w) {c : Call}
    (hc : w.index.calls[n]? = some c)
    (hreplica : ∀ x v, replica' x v ↔
      replica x v ∨ ∃ q ∈ c.inserted, (w.index.seg q).index.Holds base x v) :
    Served base replica' (n + 1) w := by
  refine ⟨h.aligned, h.covered, fun x v hshows => ?_, fun p hp x v hholds => ?_⟩
  · rcases (hreplica x v).mp hshows with hold | ⟨q, hq, hholds⟩
    · exact h.sound x v hold
    · obtain ⟨halloc, hlast⟩ := hgrown.feed.inserted_sealed (List.mem_of_getElem? hc) hq
      exact h.covered q halloc hlast x v hholds
  · rcases h.complete p hp x v hholds with hold | ⟨q, hq, hholds⟩
    · exact Or.inl ((hreplica x v).mpr (Or.inl hold))
    · rcases (Work.pending_cons hc).mp hq with hq | hq
      · exact Or.inl ((hreplica x v).mpr (Or.inr ⟨q, hq, hholds⟩))
      · exact Or.inr ⟨q, hq, hholds⟩

/-- When all calls are delivered, the replica has the rows of the levels. -/
theorem settled {idx : Index B Text} (h : Served base replica n idx.rest)
    (hn : idx.calls.length ≤ n) (x : Text) (v : Vec) :
    replica x v ↔ ∃ p ∈ idx.current, (idx.seg p).index.Holds base x v := by
  refine ⟨h.sound x v, fun ⟨p, hp, hholds⟩ => ?_⟩
  refine (h.complete p hp x v hholds).resolve_right ?_
  rintro ⟨q, hq, -⟩
  rcases (Work.pending_end hn).mp hq with hq | hq <;> cases hq

end Served

/-! ## The objects of a task -/

/-- The puts of a task leave the last file under every key. -/
theorem lookup_foldl_insert (key : Nat → Nat × Nat) (file : Nat → Bytes) {l : List Nat} {q : Nat}
    (hinj : ∀ p ∈ l, key p = key q → p = q) (store : Store)
    (h : q ∈ l ∨ store.lookup (key q) = some (file q)) :
    (l.foldl (fun store p => store.insert (key p) (file p)) store).lookup (key q) =
      some (file q) := by
  induction l generalizing store with
  | nil => exact h.resolve_left List.not_mem_nil
  | cons p l ih =>
    refine ih (fun p hp => hinj p (List.mem_cons_of_mem _ hp)) _ ?_
    by_cases heq : key q = key p
    · right
      obtain rfl := hinj p List.mem_cons_self heq.symm
      exact AList.lookup_insert _
    · have hne : q ≠ p := fun hqp => heq (hqp ▸ rfl)
      exact h.imp (fun hmem => (List.mem_cons.mp hmem).resolve_left hne)
        (AList.lookup_insert_ne heq).trans

theorem lookup_foldl_erase (key : Nat → Nat × Nat) {l : List Nat} {k : Nat × Nat}
    (hnot : ∀ id ∈ l, k ≠ key id) (store : Store) :
    (l.foldl (fun store id => store.erase (key id)) store).lookup k = store.lookup k := by
  induction l generalizing store with
  | nil => rfl
  | cons id l ih =>
    rw [List.foldl_cons, ih fun id hid => hnot id (List.mem_cons_of_mem _ hid)]
    exact AList.lookup_erase_ne (hnot id List.mem_cons_self)

/-- After a task the store has the segments that it put and did not delete. -/
theorem Task.transfer_lookup (rt : Runtime B Text Vec Dist) (platform : Platform B) (task : Task)
    (idx : Index B Text) (store : Store) {q : Nat} (hq : q ∈ task.call.inserted)
    (hinj : ∀ p ∈ task.call.inserted, idx.idOf p = idx.idOf q → p = q)
    (hkept : idx.idOf q ∉ task.call.erased) :
    (task.transfer rt platform idx store).lookup (platform.hash task.indexId, idx.idOf q) =
      some (serializeSegment rt platform.toFiles (idx.seg q)) := by
  have hkeep : ∀ id ∈ task.call.erased,
      (platform.hash task.indexId, idx.idOf q) ≠ (platform.hash task.indexId, id) := by
    intro id hid hkey
    obtain ⟨-, rfl⟩ := Prod.mk.inj hkey
    exact hkept hid
  have hput := lookup_foldl_insert (fun p => (platform.hash task.indexId, idx.idOf p))
    (fun p => serializeSegment rt platform.toFiles (idx.seg p))
    (fun p hp hkey => hinj p hp (Prod.mk.inj hkey).2) store (Or.inl hq)
  exact (lookup_foldl_erase (fun id => (platform.hash task.indexId, id)) hkeep _).trans hput

/-- The next task finds its segments, under ids that it does not delete. -/
theorem Orderly.transfer_lookup {rt : Runtime B Text Vec Dist} {platform : Platform B} {k : Nat}
    {w : Writer B} {ran : List Task} (h : Orderly rt platform k w ran) {task : Task}
    {tasks : List Task} (hnext : w.callbackRunner = task :: tasks) (store : Store) {q : Nat}
    (hq : q ∈ task.call.inserted) :
    (w.objects.get task.object).index.heap.Alloc q ∧
      (task.transfer rt platform (w.objects.get task.object).index store).lookup
        (platform.hash task.indexId, (w.objects.get task.object).index.idOf q) =
      some (serializeSegment rt platform.toFiles ((w.objects.get task.object).index.seg q)) := by
  have ho := (h.accounted.queued task (hnext ▸ List.mem_cons_self)).1
  have hc := h.accounted.next_call hnext
  have hfeed := (h.grown _ ho).feed
  have halloc : ∀ p ∈ task.call.inserted, (w.objects.get task.object).index.heap.Alloc p :=
    fun p hp => (hfeed.inserted_sealed (List.mem_of_getElem? hc) hp).1
  refine ⟨halloc q hq, task.transfer_lookup rt platform _ store hq
    (fun p hp heq => hfeed.inj p q (halloc p hp) (halloc q hq) heq) fun herased => ?_⟩
  exact hfeed.apart _ task.call hc _ herased q ((Work.pending_cons hc).mpr (Or.inl hq)) rfl

/-- The next task gives a host that it reaches the rows of its segments. -/
theorem Orderly.delivered_replica {rt : Runtime B Text Vec Dist} {base : StoringBase rt.faiss}
    {platform : Platform B} {k : Nat} {w : Writer B} {ran : List Task}
    (h : Orderly rt platform k w ran) {searchers searchers' : String → Option (Searcher B)}
    (hroot : ∀ host, ∀ s ∈ searchers host, s.Rooted) {task : Task} {tasks : List Task}
    (hnext : w.callbackRunner = task :: tasks) {store : Store} {hosts : List String}
    (hupdate : hosts.foldlM (updateIndex platform
      (task.transfer rt platform (w.objects.get task.object).index store)
      (task.request (w.objects.get task.object).index)) searchers = .ok searchers')
    {host : String} (hhost : host ∈ hosts) (x : Text) (v : Vec) :
    Replica base searchers' host task.indexId task.shardId x v ↔
      Replica base searchers host task.indexId task.shardId x v ∨
        ∃ q ∈ task.call.inserted,
          ((w.objects.get task.object).index.seg q).index.Holds base x v := by
  have hspreads := updateIndex_spreads base hosts hroot hupdate
  have halloc := (h.accounted.queued task (hnext ▸ List.mem_cons_self)).1
  refine (hspreads.shows host x v).trans (or_congr_right ?_)
  constructor
  · rintro ⟨-, id, hid, file, hfile, hrow⟩
    obtain ⟨q, hq, rfl⟩ := List.mem_map.mp hid
    obtain ⟨hqalloc, hlookup⟩ := h.transfer_lookup hnext store hq
    obtain rfl := Option.some.inj (hlookup.symm.trans hfile)
    exact ⟨q, hq, ((h.grown _ halloc).shows_iff base hqalloc).mp hrow⟩
  · rintro ⟨q, hq, hrow⟩
    obtain ⟨hqalloc, hlookup⟩ := h.transfer_lookup hnext store hq
    exact ⟨hhost, _, List.mem_map_of_mem hq, _, hlookup,
      ((h.grown _ halloc).shows_iff base hqalloc).mpr hrow⟩

/-! ## Runs -/

/-- The object of the writer for a shard. -/
def Writer.Owns (w : Writer B) (indexId shardId : String) (o : Nat) : Prop :=
  w.objects.Alloc o ∧ (w.objects.get o).indexId = indexId ∧ (w.objects.get o).shardId = shardId

/-- What holds of a shard on a host that the tasks of the shard update. -/
structure Replicates {rt : Runtime B Text Vec Dist} (base : StoringBase rt.faiss)
    (host indexId shardId : String) (w : Writer B) (ran : List Task)
    (searchers : String → Option (Searcher B)) : Prop where
  served : ∀ o, w.Owns indexId shardId o → Served base (Replica base searchers host indexId shardId)
    (callsOf o ran).length (w.objects.get o).index.rest
  empty : (∀ o, ¬ w.Owns indexId shardId o) →
    ∀ x v, ¬ Replica base searchers host indexId shardId x v

namespace Replicates

variable {rt : Runtime B Text Vec Dist} {base : StoringBase rt.faiss} {platform : Platform B}
variable {host i sh : String} {k : Nat} {w : Writer B} {ran : List Task}
variable {searchers : String → Option (Searcher B)}

/-- Before the first event the writer has no object, and the searchers have no documents. -/
theorem start (indexesConfig : AList fun _ : String => IndexConfig)
    (hnone : ∀ s ∈ searchers host, ∀ x v, ¬ s.Shows base i sh x v) :
    Replicates base host i sh (Writer.create rt indexesConfig) [] searchers :=
  ⟨fun o ho => absurd ho.1 (Nat.not_lt_zero o), fun _ x v ⟨s, hs, hshows⟩ => hnone s hs x v hshows⟩

theorem table (h : Replicates base host i sh w ran searchers) (horder : Orderly rt platform k w ran)
    {env : Env Time} {w' : Writer B} (hstep : Writer.TableStep rt env w w')
    (htabled : w'.Tabled env.listShardIds) : Replicates base host i sh w' ran searchers := by
  have hkeep : ∀ {o}, w.Owns i sh o → w'.Owns i sh o := by
    rintro o ⟨ho, hnames⟩
    obtain ⟨ho', hget⟩ := hstep.keeps ho
    exact ⟨ho', hget ▸ hnames⟩
  refine ⟨fun o ho => ?_, fun hnone => h.empty fun o ho => hnone o (hkeep ho)⟩
  obtain ⟨halloc, hi, hs⟩ := ho
  rcases hstep.objects_eq with ⟨hobjects, -⟩ | ⟨i', s', config, hobjects, -⟩
  · rw [hobjects] at halloc hi hs ⊢
    exact h.served o ⟨halloc, hi, hs⟩
  · have hsplit := hobjects ▸ halloc
    rcases Heap.alloc_cases hsplit with ⟨hold, hget⟩ | ⟨hnew, hget⟩
    · rw [← hobjects] at hget
      rw [hget] at hi hs ⊢
      exact h.served o ⟨hold, hi, hs⟩
    · rw [← hobjects] at hget
      -- no other object has the names of the new one
      have hnone : ∀ o', ¬ w.Owns i sh o' := by
        intro o' ho'
        obtain ⟨halloc', hi', hs'⟩ := hkeep ho'
        have heq := htabled.unique halloc' halloc (hi'.trans hi.symm) (hs'.trans hs.symm)
        exact Nat.ne_of_lt ho'.1 (heq.trans hnew)
      rw [hget, callsOf_eq_nil fun t ht heq =>
        Nat.ne_of_lt (horder.accounted.ran t ht).1 (heq.trans hnew)]
      exact Served.create base config w.draws (h.empty hnone)

theorem settle (h : Replicates base host i sh w ran searchers)
    (horder : Orderly rt platform k w ran) (hrand : ∀ m, rt.rand m < 256 ^ 8)
    (hk : k + 1 < 256 ^ 8) {o : Nat} {index : Index B Text} {request : WriteRequest Vec}
    (hadd : "delete" ∉ request.attributes) (ho : w.objects.Alloc o)
    (hexec : ({ (w.objects.get o).index with draws := w.draws } : Index B Text).exec rt
      request.edit.op = .ok index) (hd : rt.Distinct index.draws) :
    Replicates base host i sh (w.settle o index) ran searchers := by
  have howns : ∀ {o'}, (w.settle o index).Owns i sh o' ↔ w.Owns i sh o' := by
    intro o'
    unfold Writer.Owns
    rw [(w.settle_names o index o').1, (w.settle_names o index o').2]
    rfl
  refine ⟨fun o' ho' => ?_, fun hnone => h.empty fun o' ho' => hnone o' (howns.mpr ho')⟩
  have hold := h.served o' (howns.mp ho')
  rw [Writer.settle_get]
  split
  · next heq =>
    subst heq
    obtain ⟨-, -, -, -, hserved⟩ := horder.call hrand hk hadd ho hexec hd (P := fun u =>
      (callsOf o' ran).length ≤ u.index.calls.length ∧
        Served base (Replica base searchers host i sh) (callsOf o' ran).length u)
      (fun rows u u' hgrown _ _ _ hgrowth hu =>
        ⟨hu.1.trans hgrowth.calls_le, hu.2.grow hgrown hu.1 hgrowth⟩)
      ⟨horder.callsOf_le ho, hold.drawn w.draws⟩
    exact hserved
  · exact hold

/-- A task of the shard reaches the host, and a task of another shard leaves it alone. -/
theorem delivered (h : Replicates base host i sh w ran searchers)
    (horder : Orderly rt platform k w ran) {listShardIds : String → List String}
    (htabled : w.Tabled listShardIds) (hroot : ∀ host, ∀ s ∈ searchers host, s.Rooted)
    {task : Task} {tasks : List Task} (hnext : w.callbackRunner = task :: tasks) {store : Store}
    {hosts : List String} (hhost : i = task.indexId ∧ sh = task.shardId → host ∈ hosts)
    {searchers' : String → Option (Searcher B)}
    (hupdate : hosts.foldlM (updateIndex platform
      (task.transfer rt platform (w.objects.get task.object).index store)
      (task.request (w.objects.get task.object).index)) searchers = .ok searchers') :
    Replicates base host i sh { w with callbackRunner := tasks } (ran ++ [task]) searchers' := by
  obtain ⟨halloc, hi, hs⟩ := horder.accounted.queued task (hnext ▸ List.mem_cons_self)
  by_cases hshard : i = task.indexId ∧ sh = task.shardId
  · obtain ⟨rfl, rfl⟩ := hshard
    have hown : w.Owns task.indexId task.shardId task.object := ⟨halloc, hi, hs⟩
    refine ⟨fun o ho => ?_, fun hnone => absurd hown (hnone task.object)⟩
    obtain rfl : o = task.object :=
      htabled.unique ho.1 halloc (ho.2.1.trans hi.symm) (ho.2.2.trans hs.symm)
    rw [callsOf_append, callsOf_cons_self, List.length_append]
    exact (h.served task.object hown).deliver (horder.grown _ halloc)
      (horder.accounted.next_call hnext)
      (horder.delivered_replica hroot hnext hupdate (hhost ⟨rfl, rfl⟩))
  · have hsame := (updateIndex_spreads base hosts hroot hupdate).elsewhere host i sh hshard
    refine ⟨fun o ho => ?_, fun hnone x v hx => h.empty hnone x v ((hsame x v).mp hx)⟩
    have hne : ∀ t ∈ [task], t.object ≠ o := by
      rintro t ht rfl
      rw [List.mem_singleton.mp ht] at ho
      exact hshard ⟨ho.2.1.symm.trans hi, ho.2.2.symm.trans hs⟩
    rw [callsOf_append, callsOf_eq_nil hne, List.append_nil]
    exact (h.served o ho).congr hsame

/-- When the queue is empty, the host has the rows in the levels of the shard. -/
theorem settled (h : Replicates base host i sh w ran searchers)
    (horder : Orderly rt platform k w ran) (hlinked : w.Linked)
    {listShardIds : String → List String} (htabled : w.Tabled listShardIds)
    (hqueue : w.callbackRunner = []) (x : Text) (v : Vec) :
    Replica base searchers host i sh x v ↔
      ∃ o ∈ (w.table i).lookup sh, ∃ p ∈ (w.objects.get o).index.current,
        ((w.objects.get o).index.seg p).index.Holds base x v := by
  have hobject : ∀ o, w.Owns i sh o → (Replica base searchers host i sh x v ↔
      ∃ p ∈ (w.objects.get o).index.current,
        ((w.objects.get o).index.seg p).index.Holds base x v) := by
    intro o ho
    exact (h.served o ho).settled (horder.all_delivered ho.1 hqueue) x v
  constructor
  · intro hshows
    by_contra hnone
    refine h.empty (fun o ho => hnone ?_) x v hshows
    obtain ⟨halloc, rfl, rfl⟩ := ho
    exact ⟨o, (htabled o halloc).2, (hobject o ⟨halloc, rfl, rfl⟩).mp hshows⟩
  · rintro ⟨o, hlookup, hlevels⟩
    exact (hobject o (hlinked i sh o hlookup)).mpr hlevels

end Replicates

/-- The next task does not miss an object, whatever searchers it finds. -/
theorem Orderly.runTask_ne_missing {rt : Runtime B Text Vec Dist} {platform : Platform B} {k : Nat}
    {st : System B} {ran : List Task} (h : Orderly rt platform k st.writer ran) (env : Env Time) :
    st.runTask rt platform env ≠ .error .missingObject := by
  intro herror
  unfold System.runTask at herror
  split at herror
  · cases herror
  · next task tasks hnext =>
    rcases bind_eq_error.mp herror with hupdate | ⟨searchers, -, hret⟩
    · refine updateIndex_ne_missing _ _ (fun id hid => ?_) hupdate
      obtain ⟨q, hq, rfl⟩ := List.mem_map.mp hid
      obtain ⟨hqalloc, hlookup⟩ := h.transfer_lookup hnext st.store hq
      have ho := (h.accounted.queued task (hnext ▸ List.mem_cons_self)).1
      obtain ⟨g, hg, -⟩ := (h.grown _ ho).legible q hqalloc
      exact ⟨_, g, hlookup, hg⟩
    · cases hret

/-- What holds after every run that adds documents to the same shards. -/
theorem replicates_of_run [LT Time] [DecidableLT Time] {rt : Runtime B Text Vec Dist}
    (base : StoringBase rt.faiss) {platform : Platform B} (hrand : ∀ m, rt.rand m < 256 ^ 8)
    {indexesConfig : AList fun _ : String => IndexConfig}
    {searchersConfigs : String → Option (List ShardConfig)} {env : Env Time}
    {events : List (Event Vec Time)} {st : System B} (hlen : events.length < 256 ^ 8)
    (hadd : ∀ env request, Event.write env request ∈ events → "delete" ∉ request.attributes)
    (hfixed : ∀ e ∈ events, e.env.listShardIds = env.listShardIds)
    (hrun : (System.start rt indexesConfig searchersConfigs env).run rt platform events = .ok st)
    (hd : rt.Distinct st.writer.draws) :
    st.writer.Linked ∧ st.writer.Tabled env.listShardIds ∧
      Orderly rt platform events.length st.writer (st.sent.map Sent.task) ∧
      ∀ host i sh, (∀ env', Event.task env' ∈ events → host ∈ env'.listSearcherHosts i sh) →
        Replicates base host i sh st.writer (st.sent.map Sent.task) st.searchers := by
  have hcount := System.counts (P := fun k u => k < 256 ^ 8 → rt.Distinct u.writer.draws →
    u.writer.Tabled env.listShardIds ∧ Orderly rt platform k u.writer (u.sent.map Sent.task) ∧
      (∀ host, ∀ s ∈ u.searchers host, s.Rooted) ∧
      ∀ host i sh, (∀ env', Event.task env' ∈ events → host ∈ env'.listSearcherHosts i sh) →
        Replicates base host i sh u.writer (u.sent.map Sent.task) u.searchers) hrun
    ?_ ?_ ?_ ?_ ?_ ?_
  · obtain ⟨htabled, horder, -, hreplicates⟩ := hcount.2 hlen hd
    exact ⟨hcount.1, htabled, horder, hreplicates⟩
  · intro _ _
    have hcreate : ∀ host, ∀ s ∈ (searchersConfigs host).map (Searcher.create rt),
        s.Rooted ∧ ∀ i sh x v, ¬ s.Shows base i sh x v := by
      intro host s hs
      obtain ⟨configs, -, rfl⟩ := Option.map_eq_some_iff.mp hs
      exact Searcher.create_shows rt base configs
    exact ⟨fun o ho => absurd ho (Nat.not_lt_zero o), .create rt platform indexesConfig,
      fun host s hs => (hcreate host s hs).1,
      fun host i sh _ => .start indexesConfig fun s hs => (hcreate host s hs).2 i sh⟩
  · intro k u hu hk hd
    obtain ⟨htabled, horder, hroot, hreplicates⟩ := hu (by omega) hd
    exact ⟨htabled, horder.later, hroot, hreplicates⟩
  · intro env' henv k u w' _ hu hstep hk hd
    obtain ⟨htabled, horder, hroot, hreplicates⟩ := hu hk (hd.mono hstep.draws_le)
    have hlist : env'.listShardIds = env.listShardIds := by
      rcases henv with rfl | ⟨e, he, rfl⟩
      · rfl
      · exact hfixed e he
    have htabled' : w'.Tabled env'.listShardIds := Writer.Tabled.step (hlist ▸ htabled) hstep
    exact ⟨hlist ▸ htabled', horder.table hrand hstep hd, hroot,
      fun host i sh hhost => (hreplicates host i sh hhost).table horder hstep htabled'⟩
  · intro k u gauge hu hk hd
    obtain ⟨htabled, horder, hroot, hreplicates⟩ := hu hk hd
    exact ⟨htabled, horder.gauge gauge, hroot, fun host i sh hhost =>
      ⟨(hreplicates host i sh hhost).served, (hreplicates host i sh hhost).empty⟩⟩
  · intro env' request he k u o index _ hu ho hexec hk hd
    have hle : u.writer.draws ≤ index.draws := draws_le_of_runs (Index.exec_runs hexec)
    obtain ⟨htabled, horder, hroot, hreplicates⟩ := hu (by omega) (hd.mono hle)
    have hput := hadd env' request he
    exact ⟨htabled.settle o index, horder.settle hrand hk hput ho hexec hd, hroot,
      fun host i sh hhost => (hreplicates host i sh hhost).settle horder hrand hk hput ho hexec hd⟩
  · intro env' he k u task tasks searchers _ hu hnext hupdate hk hd
    obtain ⟨htabled, horder, hroot, hreplicates⟩ := hu (by omega) hd
    have htasks : (u.delivered rt platform task tasks searchers).sent.map Sent.task =
        u.sent.map Sent.task ++ [task] := List.map_append
    rw [htasks]
    refine ⟨htabled, (horder.delivered hnext).later,
      (updateIndex_spreads base _ hroot hupdate).rooted, fun host i sh hhost => ?_⟩
    exact (hreplicates host i sh hhost).delivered horder htabled hroot hnext
      (fun hshard => hshard.1 ▸ hshard.2 ▸ hhost env' he) hupdate

/-- In a run that adds documents to the same shards, the next task never misses an object, whatever
searchers it finds; and when the queue is empty, every searcher that was listed for a shard by all
tasks holds the rows that the levels of the shard hold. -/
theorem replicas_agree [LT Time] [DecidableLT Time] {rt : Runtime B Text Vec Dist}
    (base : StoringBase rt.faiss) (platform : Platform B) (hrand : ∀ m, rt.rand m < 256 ^ 8)
    {indexesConfig : AList fun _ : String => IndexConfig}
    {searchersConfigs : String → Option (List ShardConfig)} {env : Env Time}
    {events : List (Event Vec Time)} {st : System B} (hlen : events.length < 256 ^ 8)
    (hadd : ∀ env request, Event.write env request ∈ events → "delete" ∉ request.attributes)
    (hfixed : ∀ e ∈ events, e.env.listShardIds = env.listShardIds)
    (hrun : (System.start rt indexesConfig searchersConfigs env).run rt platform events = .ok st)
    (hd : rt.Distinct st.writer.draws) :
    (∀ env' : Env Time, st.runTask rt platform env' ≠ .error .missingObject) ∧
    (st.writer.callbackRunner = [] → ∀ host i sh,
      (∀ env', Event.task env' ∈ events → host ∈ env'.listSearcherHosts i sh) → ∀ x v,
      (Replica base st.searchers host i sh x v ↔
        ∃ o ∈ (st.writer.table i).lookup sh, ∃ p ∈ (st.writer.objects.get o).index.current,
          ((st.writer.objects.get o).index.seg p).index.Holds base x v)) := by
  obtain ⟨hlinked, htabled, horder, hreplicates⟩ :=
    replicates_of_run base hrand hlen hadd hfixed hrun hd
  exact ⟨horder.runTask_ne_missing, fun hqueue host i sh hhost =>
    (hreplicates host i sh hhost).settled horder hlinked htabled hqueue⟩

/-- Two documents are added before any task runs. The first task puts the joined segment. -/
def lateTasks : List (Event Nat Nat) :=
  [.write (docsEnv ["east"] ["host"]) (addRequest 97 10),
    .write (docsEnv ["east"] ["host"]) (addRequest 98 20), .task (docsEnv ["east"] ["host"]),
    .task (docsEnv ["east"] ["host"]), .task (docsEnv ["east"] ["host"])]

theorem replicas_agree_late :
    ∃ st, (System.start countingRuntime docsConfig docsSearchers (docsEnv ["east"] ["host"])).run
        countingRuntime linePlatform lateTasks = .ok st ∧ st.writer.callbackRunner = [] ∧
      ∀ x v, Replica countingBase st.searchers "host" "docs" "east" x v ↔
        ∃ o ∈ (st.writer.table "docs").lookup "east",
          ∃ p ∈ (st.writer.objects.get o).index.current,
            ((st.writer.objects.get o).index.seg p).index.Holds countingBase x v := by
  obtain ⟨st, hrun, hqueue, hdraws⟩ : ∃ st, (System.start countingRuntime docsConfig docsSearchers
      (docsEnv ["east"] ["host"])).run countingRuntime linePlatform lateTasks = .ok st ∧
      st.writer.callbackRunner = [] ∧ st.writer.draws = 4 := exists_ok (by decide +kernel)
  have henv : ∀ e ∈ lateTasks, e.env = docsEnv ["east"] ["host"] := by
    intro e he
    simp only [lateTasks, List.mem_cons, List.not_mem_nil, or_false] at he
    rcases he with rfl | rfl | rfl | rfl | rfl <;> rfl
  refine ⟨st, hrun, hqueue, (replicas_agree countingBase linePlatform countingRuntime_lt (by decide)
    (fun env request he => ?_) (fun e he => congrArg Env.listShardIds (henv e he)) hrun
    (hdraws ▸ countingRuntime_distinct)).2 hqueue "host" "docs" "east" fun env' he => ?_⟩
  · simp only [lateTasks, List.mem_cons, Event.write.injEq, reduceCtorEq, List.not_mem_nil,
      or_false] at he
    rcases he with ⟨-, rfl⟩ | ⟨-, rfl⟩ <;> decide
  · rw [show env' = docsEnv ["east"] ["host"] from henv _ he]
    exact List.mem_cons_self

end Vecodex
