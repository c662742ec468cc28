import Vecodex.Laws.StoreRule

/-!
# The bucket of an index

The put of a segment is made under the id it has when its task runs, the deletions under the ids
the segments had when they were merged. In between a segment may be renamed or absorbed, and the
task of the older call then puts an object that a later call deletes. `Stored` relates the objects
of a bucket to the calls that are still to be delivered: a segment of the levels has its object or
is pending, and an object belongs to a segment of the levels or is to be deleted.

When the queue is empty, the bucket holds exactly the segments of the levels (`bucket_agrees`), as
long as no other index has the bucket: it is named by the hash value of the index id, and two
indexes with one value share it (`bucket_shared`).
-/

namespace Vecodex

open Lib

variable {B Vec Dist Time : Type}

/-- The objects of a bucket, and the calls of an index that are still to be delivered. -/
structure Stored (rt : Runtime B Text Vec Dist) (platform : Platform B) (n : Nat) (w : Work B Text)
    (objects : Nat → Option Bytes) : Prop where
  current : ∀ p ∈ w.index.current, w.Pending n p ∨ w.index.Written rt platform objects p
  known : ∀ id, w.Known id → objects id ≠ none →
    w.Doomed n id ∨ ∃ p ∈ w.index.current, w.index.idOf p = id

namespace Stored

variable {rt : Runtime B Text Vec Dist} {platform : Platform B}
variable {n : Nat} {w w' : Work B Text} {objects : Nat → Option Bytes} {c : Call}

theorem create (platform : Platform B) (config : IndexConfig) (draws : Nat)
    (objects : Nat → Option Bytes) (hnone : objects (rt.rand draws) = none) :
    Stored rt platform 0 (Index.create rt config true draws : Index B Text).rest objects := by
  refine ⟨fun p hp => ?_, fun id hid hsome => ?_⟩
  · cases hp
  · rw [← Feed.known_create hid] at hsome
    exact absurd hnone hsome

theorem grow (h : Stored rt platform n w objects) (hgrown : Grown rt platform w)
    (hd : rt.Distinct w'.index.draws) (hn : n ≤ w.index.calls.length)
    (hdrawn : ∀ id, objects id ≠ none → ∃ m < w.index.draws, rt.rand m = id)
    {rows : List (Text × Vec)} (hgrowth : Growth rt rows w w') :
    Stored rt platform n w' objects := by
  constructor
  · intro p hp
    rcases hgrowth.current_cases hgrown.shape hp with ⟨hp, hseg⟩ | hpending
    · refine (h.current p hp).imp (hgrowth.pending_mono hn) fun hwritten => ?_
      unfold Index.Written Index.idOf at hwritten ⊢
      rwa [hseg]
    · exact Or.inl (hpending n)
  · intro id hid hsome
    rcases hgrowth.known_cases hgrown.shape hid with hid | ⟨hlt, rfl⟩
    · rcases h.known id hid hsome with hdoomed | ⟨p, hp, rfl⟩
      · exact Or.inl (hgrowth.doomed_mono hn hdoomed)
      · rcases hgrowth.current_keeps hgrown.shape hp with ⟨hp, heq⟩ | hdoomed
        · exact Or.inr ⟨p, hp, heq⟩
        · exact Or.inl (hdoomed n)
    · -- nothing is stored under a value that is drawn only now
      obtain ⟨m, hm, heq⟩ := hdrawn _ hsome
      exact absurd (hd m (by omega) _ hlt heq) (by omega)

theorem put (h : Stored rt platform n w objects) (hgrown : Grown rt platform w)
    (hc : w.index.calls[n]? = some c) {p : Nat} (hp : p ∈ c.inserted) :
    Stored rt platform n w (Function.update objects (w.index.idOf p)
      (some (serializeSegment rt platform.toFiles (w.index.seg p)))) := by
  have hpending : w.Pending n p := (Work.pending_cons hc).mpr (Or.inl hp)
  have halloc := (hgrown.feed.inserted_sealed (List.mem_of_getElem? hc) hp).1
  constructor
  · intro q hq
    exact (h.current q hq).imp_right
      (StoreRule.written_put hgrown.feed halloc (hgrown.shape.current_alloc q hq))
  · intro id hid hsome
    by_cases heq : id = w.index.idOf p
    · -- an object of a segment that left the levels is to be deleted
      subst heq
      have hn : n ≤ w.index.calls.length := (List.getElem?_eq_some_iff.mp hc).1.le
      exact (hgrown.feed.absorbed n hn p hpending).symm.imp_right fun hp => ⟨p, hp, rfl⟩
    · rw [Function.update_of_ne heq] at hsome
      exact h.known id hid hsome

theorem delete (h : Stored rt platform n w objects) (hgrown : Grown rt platform w)
    (hc : w.index.calls[n]? = some c) {id : Nat} (hid : id ∈ c.erased) :
    Stored rt platform n w (Function.update objects id none) := by
  constructor
  · intro p hp
    refine (h.current p hp).imp_right fun hwritten => ?_
    have hne := hgrown.feed.retired id (Feed.doomed_of_call hc hid) p (Or.inl hp)
    unfold Index.Written
    rwa [Function.update_of_ne hne]
  · intro id' hid' hsome
    by_cases heq : id' = id
    · rw [heq, Function.update_self] at hsome
      exact absurd rfl hsome
    · rw [Function.update_of_ne heq] at hsome
      exact h.known id' hid' hsome

theorem done (h : Stored rt platform n w objects) (hc : w.index.calls[n]? = some c)
    (hputs : ∀ p ∈ c.inserted, w.index.Written rt platform objects p)
    (hdeleted : ∀ id ∈ c.erased, objects id = none) : Stored rt platform (n + 1) w objects := by
  constructor
  · intro p hp
    rcases h.current p hp with hpending | hwritten
    · rcases (Work.pending_cons hc).mp hpending with hp | hpending
      · exact Or.inr (hputs p hp)
      · exact Or.inl hpending
    · exact Or.inr hwritten
  · intro id hid hsome
    refine (h.known id hid hsome).imp_left fun hdoomed => ?_
    exact ((Work.doomed_cons hc).mp hdoomed).resolve_left fun hmem => hsome (hdeleted id hmem)

/-- The rule for the objects of a bucket, when all puts succeed. -/
theorem rule (rt : Runtime B Text Vec Dist) (platform : Platform B) :
    StoreRule rt platform (fun _ ok => ok = true) (Stored rt platform) fun _ => True where
  congr hgrown hagree h := by
    constructor
    · intro p hp
      refine (h.current p hp).imp_right fun hwritten => ?_
      unfold Index.Written
      rwa [hagree _ (Or.inl ⟨p, hgrown.shape.current_alloc p hp, rfl⟩)]
    · intro id hid hsome
      rw [hagree id hid] at hsome
      exact h.known id hid hsome
  drawn _ h := ⟨h.current, h.known⟩
  create := Stored.create platform
  grow hgrown _ _ hd hn hdrawn hgrowth h := h.grow hgrown hd hn hdrawn hgrowth
  put hgrown hc hp h := h.put hgrown hc hp
  delete hgrown hc hid h := h.delete hgrown hc hid
  done _ hc hQ hputs hdeleted h := h.done hc (hputs hQ) hdeleted
  log_nil := trivial
  log_put _ _ _ _ _ _ := trivial
  log_delete _ _ _ _ _ _ _ := trivial

/-- When all calls are delivered, the bucket has the segments of the levels and no other object
of the index. -/
theorem settled {idx : Index B Text} (h : Stored rt platform n idx.rest objects)
    (hn : idx.calls.length ≤ n) :
    (∀ p ∈ idx.current, idx.Written rt platform objects p) ∧
      ∀ id, idx.rest.Known id → objects id ≠ none → ∃ p ∈ idx.current, idx.idOf p = id := by
  constructor
  · intro p hp
    refine (h.current p hp).resolve_left fun hpending => ?_
    rcases (Work.pending_end hn).mp hpending with hp | hp <;> cases hp
  · intro id hid hsome
    refine (h.known id hid hsome).resolve_left ?_
    rintro (⟨c, hc, -⟩ | herased)
    · rw [show idx.rest.index.calls.drop n = [] from List.drop_eq_nil_of_le hn] at hc
      cases hc
    · cases herased

end Stored

/-! ## Runs -/

/-- The segment `p` of the object `o` is in the levels of a shard of the index. -/
def Writer.Sealed (w : Writer B) (indexId : String) (o p : Nat) : Prop :=
  ∃ shardId, (w.table indexId).lookup shardId = some o ∧ p ∈ (w.objects.get o).index.current

namespace Writer.Sealed

variable {rt : Runtime B Text Vec Dist} {platform : Platform B} {k : Nat} {w : Writer B}
variable {ran : List Task} {i : String} {o o' p p' : Nat}

theorem names (h : w.Sealed i o p) (hlinked : w.Linked) :
    w.objects.Alloc o ∧ (w.objects.get o).indexId = i ∧ p ∈ (w.objects.get o).index.current := by
  obtain ⟨s, hlookup, hp⟩ := h
  obtain ⟨ho, hi, -⟩ := hlinked i s o hlookup
  exact ⟨ho, hi, hp⟩

/-- The ids of the segments in the levels of an index are pairwise distinct. -/
theorem unique (h : w.Sealed i o p) (h' : w.Sealed i o' p') (hlinked : w.Linked)
    (horder : Orderly rt platform k w ran)
    (heq : (w.objects.get o).index.idOf p = (w.objects.get o').index.idOf p') :
    o = o' ∧ p = p' := by
  obtain ⟨ho, -, hp⟩ := h.names hlinked
  obtain ⟨ho', -, hp'⟩ := h'.names hlinked
  have halloc := (horder.grown o ho).shape.current_alloc p hp
  have halloc' := (horder.grown o' ho').shape.current_alloc p' hp'
  have hsame : o = o' := by
    by_contra hne
    exact horder.separate o o' ho ho' hne _ (Or.inl ⟨p, halloc, rfl⟩)
      (Or.inl ⟨p', halloc', heq.symm⟩)
  subst hsame
  exact ⟨rfl, (horder.grown o ho).feed.inj p p' halloc halloc' heq⟩

end Writer.Sealed

/-- When the queue of a run that only adds is empty, the bucket of an index holds one object for
every segment in the levels of its shards, under the current id of the segment, and the object
gives the segment back as it is. -/
theorem bucket_agrees [LT Time] [DecidableLT Time] {rt : Runtime B Text Vec Dist}
    (platform : Platform B) (hrand : ∀ m, rt.rand m < 256 ^ 8)
    {indexesConfig : AList fun _ : String => IndexConfig} {env : Env Time}
    {events : List (ArchiveEvent Vec Time)} {a : Archive B} (hlen : events.length < 256 ^ 8)
    (hadd : ∀ env request, ArchiveEvent.write env request ∈ events → "delete" ∉ request.attributes)
    (hfixed : ∀ env' request, ArchiveEvent.write env' request ∈ events →
      env'.listShardIds = env.listShardIds)
    (hrun : (Archive.start rt indexesConfig env).run rt platform events = .ok a)
    (hd : rt.Distinct a.writer.draws) (hloss : a.Lossless) {i : String}
    (hhash : ∀ j, env.listShardIds j ≠ [] → platform.hash j = platform.hash i → j = i)
    (hqueue : a.writer.callbackRunner = []) :
    (∀ id, (platform.hash i, id) ∈ a.store ↔
      ∃ o p, a.writer.Sealed i o p ∧ (a.writer.objects.get o).index.idOf p = id) ∧
    (∀ o p o' p', a.writer.Sealed i o p → a.writer.Sealed i o' p' →
      (a.writer.objects.get o).index.idOf p = (a.writer.objects.get o').index.idOf p' →
      o = o' ∧ p = p') ∧
    ∀ o p, a.writer.Sealed i o p → ∃ file g,
      a.store.lookup (platform.hash i, (a.writer.objects.get o).index.idOf p) = some file ∧
      deserealizeSegment platform.toFiles file = .ok (some g, []) ∧
      g.segId = (a.writer.objects.get o).index.idOf p ∧
      g.index.Same ((a.writer.objects.get o).index.seg p).index := by
  obtain ⟨hlinked, htabled⟩ := Archive.tabled hrun hfixed
  obtain ⟨horder, hholds⟩ := (Stored.rule rt platform).of_run hrand hlen hadd hrun hd
    fun d hdelivery => List.all_eq_true.mpr fun op hop =>
      (Bool.not_eq_true' _).mpr (hloss d hdelivery op hop)
  -- the calls of every object have been delivered
  have hsettled : ∀ o, a.writer.objects.Alloc o → _ := fun o ho =>
    (hholds.objects o ho).settled (horder.all_delivered ho hqueue)
  have hwritten : ∀ {o p}, a.writer.Sealed i o p →
      a.store.lookup (platform.hash i, (a.writer.objects.get o).index.idOf p) = some
        (serializeSegment rt platform.toFiles ((a.writer.objects.get o).index.seg p)) := by
    intro o p hsealed
    obtain ⟨ho, rfl, hp⟩ := hsealed.names hlinked
    exact (hsettled o ho).1 p hp
  refine ⟨fun id => ⟨fun hid => ?_, ?_⟩,
    fun o p o' p' hsealed hsealed' => hsealed.unique hsealed' hlinked horder,
    fun o p hsealed => ?_⟩
  · have hsome : Store.view a.store (platform.hash i) id ≠ none := fun hnone =>
      AList.lookup_eq_none.mp hnone hid
    obtain ⟨o, ho, hbucket, hknown⟩ := hholds.known _ id hsome
    have hi : (a.writer.objects.get o).indexId = i :=
      hhash _ (List.ne_nil_of_mem (htabled o ho).1) hbucket
    subst hi
    obtain ⟨p, hp, heq⟩ := (hsettled o ho).2 id hknown hsome
    exact ⟨o, p, ⟨_, (htabled o ho).2, hp⟩, heq⟩
  · rintro ⟨o, p, hsealed, rfl⟩
    exact AList.lookup_isSome.mp (Option.isSome_of_eq_some (hwritten hsealed))
  · obtain ⟨ho, -, hp⟩ := hsealed.names hlinked
    have hgrown := horder.grown o ho
    obtain ⟨g, hg, hid, hsame⟩ := hgrown.legible p (hgrown.shape.current_alloc p hp)
    exact ⟨_, g, hwritten hsealed, hg, hid, hsame⟩

theorem bucket_agrees_joined :
    ∃ a, (Archive.start countingRuntime docsConfig (docsEnv ["east"] ["host"])).run countingRuntime
        linePlatform (joinedAdds true) = .ok a ∧ a.writer.callbackRunner = [] ∧
      ∀ id, (linePlatform.hash "docs", id) ∈ a.store ↔
        ∃ o p, a.writer.Sealed "docs" o p ∧ (a.writer.objects.get o).index.idOf p = id := by
  obtain ⟨a, hrun, hqueue, hdraws, hloss⟩ : ∃ a, (Archive.start countingRuntime docsConfig
      (docsEnv ["east"] ["host"])).run countingRuntime linePlatform (joinedAdds true) = .ok a ∧
      a.writer.callbackRunner = [] ∧ a.writer.draws = 4 ∧
      ∀ d ∈ a.ran, ∀ op ∈ d.operations, op.failed = false :=
    exists_ok (by decide +kernel)
  refine ⟨a, hrun, hqueue, (bucket_agrees linePlatform countingRuntime_lt (by decide)
    (fun env request hmem => (joinedAdds_write hmem).2)
    (fun env request hmem => congrArg Env.listShardIds (joinedAdds_write hmem).1) hrun
    (hdraws ▸ countingRuntime_distinct) hloss (fun j hlisted _ => ?_) hqueue).1⟩
  by_contra hne
  exact hlisted (if_neg hne)

/-- Two indexes whose names have one hash value, each with one shard. -/
def twinConfig : AList fun _ : String => IndexConfig := docsConfig.insert "mail" (unitConfig true)

def twinEnv : Env Nat :=
  { docsEnv [] ["host"] with
    listShardIds := fun i => if i ∈ ["docs", "mail"] then ["east"] else [] }

/-- The segment of one index is in the bucket of the other, which has none. -/
theorem bucket_shared :
    ∃ a, (Archive.start countingRuntime twinConfig twinEnv).run countingRuntime linePlatform
        [.write twinEnv (addRequest 97 10), .task fun _ => true] = .ok a ∧
      a.writer.callbackRunner = [] ∧ countingRuntime.Distinct a.writer.draws ∧ a.Lossless ∧
      ∃ id, (linePlatform.hash "mail", id) ∈ a.store ∧
        ¬ ∃ o p, a.writer.Sealed "mail" o p ∧ (a.writer.objects.get o).index.idOf p = id := by
  obtain ⟨a, hrun, hqueue, hdraws, hloss, hmem, hempty⟩ : ∃ a, (Archive.start countingRuntime
      twinConfig twinEnv).run countingRuntime linePlatform
        [.write twinEnv (addRequest 97 10), .task fun _ => true] = .ok a ∧
      a.writer.callbackRunner = [] ∧ a.writer.draws ≤ 4 ∧
      (∀ d ∈ a.ran, ∀ op ∈ d.operations, op.failed = false) ∧
      (∃ key ∈ a.store.keys, key.1 = linePlatform.hash "mail") ∧
      ∀ e ∈ (a.writer.table "mail").entries, (a.writer.objects.get e.2).index.current = [] :=
    exists_ok (by decide +kernel)
  obtain ⟨⟨bucket, id⟩, hkey, rfl⟩ := hmem
  refine ⟨a, hrun, hqueue, countingRuntime_distinct.mono hdraws, hloss, id, hkey, ?_⟩
  rintro ⟨o, p, ⟨shardId, hshard, hp⟩, -⟩
  rw [hempty ⟨shardId, o⟩ (AList.mem_lookup_iff.mp hshard)] at hp
  cases hp

end Vecodex
