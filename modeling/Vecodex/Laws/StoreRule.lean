import Vecodex.Laws.Archive
import Vecodex.Laws.Objects

/-!
# The objects in the store

A task changes the objects of one bucket, under ids that only its own index object knows. So what
holds between an index object and the objects in its bucket is kept when the tasks of another one
run. `StoreRule` says what has to be shown of such a property, for one index object and one growth
or operation at a time, and `StoreRule.of_run` is the induction over the runs of an archive whose
requests add documents.
-/

namespace Vecodex

open Lib

variable {B Vec Dist Time : Type}

/-! ## Properties of the objects -/

/-- The object under the id of the segment is the segment as it is now. -/
def Index.Written (rt : Runtime B Text Vec Dist) (platform : Platform B) (idx : Index B Text)
    (objects : Nat → Option Bytes) (p : Nat) : Prop :=
  objects (idx.idOf p) = some (serializeSegment rt platform.toFiles (idx.seg p))

/-- What has to be shown of a property of an index, the number of its calls that were delivered and
the objects in its bucket. `Q` is assumed of every task: of its call, and of whether all its puts
succeeded. `L` is a property of the log. -/
structure StoreRule (rt : Runtime B Text Vec Dist) (platform : Platform B)
    (Q : Call → Bool → Prop) (I : Nat → Work B Text → (Nat → Option Bytes) → Prop)
    (L : List StoreOp → Prop) : Prop where
  congr : ∀ {n w objects objects'}, Grown rt platform w →
    (∀ id, w.Known id → objects' id = objects id) → I n w objects → I n w objects'
  drawn : ∀ {n} {idx : Index B Text} {objects} (draws : Nat), I n idx.rest objects →
    I n ({ idx with draws := draws } : Index B Text).rest objects
  create : ∀ config draws objects, objects (rt.rand draws) = none →
    I 0 (Index.create rt config true draws : Index B Text).rest objects
  grow : ∀ {n w w' objects rows}, Grown rt platform w → Shape w' → Feed rt w' →
    rt.Distinct w'.index.draws → n ≤ w.index.calls.length →
    (∀ id, objects id ≠ none → ∃ m < w.index.draws, rt.rand m = id) → Growth rt rows w w' →
    I n w objects → I n w' objects
  put : ∀ {n w objects c p}, Grown rt platform w → w.index.calls[n]? = some c →
    p ∈ c.inserted → I n w objects → I n w (Function.update objects (w.index.idOf p)
      (some (serializeSegment rt platform.toFiles (w.index.seg p))))
  delete : ∀ {n w objects c id}, Grown rt platform w → w.index.calls[n]? = some c →
    id ∈ c.erased → I n w objects → I n w (Function.update objects id none)
  done : ∀ {n w objects c ok}, Grown rt platform w → w.index.calls[n]? = some c → Q c ok →
    (ok = true → ∀ p ∈ c.inserted, w.index.Written rt platform objects p) →
    (∀ id ∈ c.erased, objects id = none) → I n w objects → I (n + 1) w objects
  log_nil : L []
  log_put : ∀ {n w c p log bucket} (ok : Bool), Grown rt platform w →
    w.index.calls[n]? = some c → p ∈ c.inserted →
    I n w (Store.view (Archive.storeAfter log) bucket) → L log →
    L (log ++ [.putObject bucket (w.index.idOf p)
      (serializeSegment rt platform.toFiles (w.index.seg p)) ok])
  log_delete : ∀ {n w c id log bucket ok}, Grown rt platform w → w.index.calls[n]? = some c →
    id ∈ c.erased → Q c ok →
    (ok = true → ∀ p ∈ c.inserted,
      w.index.Written rt platform (Store.view (Archive.storeAfter log) bucket) p) →
    I n w (Store.view (Archive.storeAfter log) bucket) → L log → L (log ++ [.delObject bucket id])

namespace StoreRule

variable {rt : Runtime B Text Vec Dist} {platform : Platform B}
variable {Q : Call → Bool → Prop} {I : Nat → Work B Text → (Nat → Option Bytes) → Prop}
variable {L : List StoreOp → Prop}

/-- What holds of the store between two operations. -/
structure Holds (platform : Platform B)
    (I : Nat → Work B Text → (Nat → Option Bytes) → Prop) (L : List StoreOp → Prop)
    (w : Writer B) (ran : List Task) (log : List StoreOp) : Prop where
  /-- An object in a bucket is under an id that an index object of the bucket knows. -/
  known : ∀ bucket id, Store.view (Archive.storeAfter log) bucket id ≠ none →
    ∃ o, w.objects.Alloc o ∧ platform.hash (w.objects.get o).indexId = bucket ∧
      (w.objects.get o).index.rest.Known id
  objects : ∀ o, w.objects.Alloc o → I (callsOf o ran).length (w.objects.get o).index.rest
    (Store.view (Archive.storeAfter log) (platform.hash (w.objects.get o).indexId))
  log : L log

section Deliver

variable {k : Nat} {w : Writer B} {ran : List Task} {log : List StoreOp} {o : Nat} {c : Call}

/-- An operation under an id of an object: the other objects do not know the id. -/
theorem Holds.change (rule : StoreRule rt platform Q I L) (horder : Orderly rt platform k w ran)
    (h : Holds platform I L w ran log) (ho : w.objects.Alloc o) {id : Nat}
    (hid : (w.objects.get o).index.rest.Known id) {op : StoreOp} {value : Option Bytes}
    (hview : ∀ bucket, Store.view (op.apply (Archive.storeAfter log)) bucket =
      if bucket = platform.hash (w.objects.get o).indexId then
        Function.update (Store.view (Archive.storeAfter log)
          (platform.hash (w.objects.get o).indexId)) id value
      else Store.view (Archive.storeAfter log) bucket)
    (hown : I (callsOf o ran).length (w.objects.get o).index.rest
      (Function.update (Store.view (Archive.storeAfter log)
        (platform.hash (w.objects.get o).indexId)) id value))
    (hlog : L (log ++ [op])) : Holds platform I L w ran (log ++ [op]) := by
  refine ⟨?_, ?_, hlog⟩
  · intro bucket id' hid'
    rw [Archive.storeAfter_concat, hview] at hid'
    split at hid'
    · next hbucket =>
      by_cases heq : id' = id
      · exact ⟨o, ho, hbucket.symm, heq ▸ hid⟩
      · rw [Function.update_of_ne heq, ← hbucket] at hid'
        exact h.known _ id' hid'
    · exact h.known bucket id' hid'
  · intro o' ho'
    rw [Archive.storeAfter_concat]
    by_cases heq : o' = o
    · subst heq
      rw [hview, if_pos rfl]
      exact hown
    · refine rule.congr (horder.grown o' ho') (fun id' hid' => ?_) (h.objects o' ho')
      rw [hview]
      split
      · next hbucket =>
        rw [hbucket, Function.update_of_ne]
        rintro rfl
        exact horder.separate o o' ho ho' (Ne.symm heq) id' hid hid'
      · rfl

/-- What a call hands over is known under its id. -/
theorem known_of_inserted (horder : Orderly rt platform k w ran) (ho : w.objects.Alloc o)
    (hc : c ∈ (w.objects.get o).index.calls) {p : Nat} (hp : p ∈ c.inserted) :
    (w.objects.get o).index.heap.Alloc p ∧
      (w.objects.get o).index.rest.Known ((w.objects.get o).index.idOf p) := by
  have halloc := ((horder.grown o ho).feed.inserted_sealed hc hp).1
  exact ⟨halloc, Or.inl ⟨p, halloc, rfl⟩⟩

theorem Holds.put (rule : StoreRule rt platform Q I L) (horder : Orderly rt platform k w ran)
    (h : Holds platform I L w ran log) (ho : w.objects.Alloc o)
    (hc : (w.objects.get o).index.calls[(callsOf o ran).length]? = some c) {p : Nat}
    (hp : p ∈ c.inserted) (ok : Bool) :
    Holds platform I L w ran (log ++ [.putObject
      (platform.hash (w.objects.get o).indexId) ((w.objects.get o).index.idOf p)
      (serializeSegment rt platform.toFiles ((w.objects.get o).index.seg p)) ok]) := by
  have hgrown := horder.grown o ho
  have hlog := rule.log_put ok hgrown hc hp (h.objects o ho) h.log
  cases ok with
  | false =>
    have hsame := Archive.storeAfter_concat log (.putObject
      (platform.hash (w.objects.get o).indexId) ((w.objects.get o).index.idOf p)
      (serializeSegment rt platform.toFiles ((w.objects.get o).index.seg p)) false)
    replace hsame : Archive.storeAfter (log ++ _) = Archive.storeAfter log := hsame
    exact ⟨hsame ▸ h.known, hsame ▸ h.objects, hlog⟩
  | true =>
    exact h.change rule horder ho (known_of_inserted horder ho (List.mem_of_getElem? hc) hp).2
      (Store.view_insert _ _ _ _) (rule.put hgrown hc hp (h.objects o ho)) hlog

theorem Holds.delete (rule : StoreRule rt platform Q I L) (horder : Orderly rt platform k w ran)
    (h : Holds platform I L w ran log) (ho : w.objects.Alloc o)
    (hc : (w.objects.get o).index.calls[(callsOf o ran).length]? = some c) {id : Nat}
    (hid : id ∈ c.erased) {ok : Bool} (hQ : Q c ok)
    (hok : ok = true → ∀ p ∈ c.inserted, (w.objects.get o).index.Written rt platform
      (Store.view (Archive.storeAfter log) (platform.hash (w.objects.get o).indexId)) p) :
    Holds platform I L w ran (log ++ [.delObject
      (platform.hash (w.objects.get o).indexId) id]) := by
  have hgrown := horder.grown o ho
  exact h.change rule horder ho (Or.inr (Feed.doomed_of_call hc hid)) (Store.view_erase _ _ _)
    (rule.delete hgrown hc hid (h.objects o ho))
    (rule.log_delete hgrown hc hid hQ hok (h.objects o ho) h.log)

/-- The put of a segment leaves the objects of the others alone. -/
theorem written_put {u : Work B Text} {objects : Nat → Option Bytes} (hfeed : Feed rt u)
    {p q : Nat} (hp : u.index.heap.Alloc p) (hq : u.index.heap.Alloc q)
    (hwritten : u.index.Written rt platform objects q) :
    u.index.Written rt platform (Function.update objects (u.index.idOf p)
      (some (serializeSegment rt platform.toFiles (u.index.seg p)))) q := by
  unfold Index.Written
  by_cases heq : u.index.idOf q = u.index.idOf p
  · obtain rfl := hfeed.inj q p hq hp heq
    exact Function.update_self ..
  · rw [Function.update_of_ne heq]
    exact hwritten

/-- The first loop of a task. -/
theorem Holds.puts (rule : StoreRule rt platform Q I L) (horder : Orderly rt platform k w ran)
    (ho : w.objects.Alloc o)
    (hc : (w.objects.get o).index.calls[(callsOf o ran).length]? = some c) (ok : Nat → Bool)
    {l : List Nat} (i : Nat) (hl : ∀ p ∈ l, p ∈ c.inserted) {log : List StoreOp}
    (h : Holds platform I L w ran log) {ops : List StoreOp}
    (hops : ops = (l.zipIdx i).map fun entry => StoreOp.putObject
      (platform.hash (w.objects.get o).indexId) ((w.objects.get o).index.idOf entry.1)
      (serializeSegment rt platform.toFiles ((w.objects.get o).index.seg entry.1)) (ok entry.2)) :
    Holds platform I L w ran (log ++ ops) ∧
      ∀ q, (w.objects.get o).index.heap.Alloc q →
        (q ∈ l ∧ (∀ op ∈ ops, op.failed = false)) ∨ (w.objects.get o).index.Written rt platform
          (Store.view (Archive.storeAfter log) (platform.hash (w.objects.get o).indexId)) q →
        (w.objects.get o).index.Written rt platform (Store.view (Archive.storeAfter (log ++ ops))
          (platform.hash (w.objects.get o).indexId)) q := by
  subst hops
  induction l generalizing log i with
  | nil =>
    rw [show ([] : List Nat).zipIdx i = [] from rfl, List.map_nil, List.append_nil]
    exact ⟨h, fun q _ hq => hq.resolve_left fun hq => List.not_mem_nil hq.1⟩
  | cons p l ih =>
    have hp := hl p List.mem_cons_self
    have hput := h.put rule horder ho hc hp (ok i)
    obtain ⟨hend, hwritten⟩ := ih (i + 1) (fun q hq => hl q (List.mem_cons_of_mem _ hq)) hput
    rw [List.zipIdx_cons, List.map_cons, ← List.singleton_append, ← List.append_assoc]
    refine ⟨hend, fun q hq hcase => hwritten q hq ?_⟩
    have halloc := (known_of_inserted horder ho (List.mem_of_getElem? hc) hp).1
    rw [Archive.storeAfter_concat]
    rcases hcase with ⟨hmem, hsucceed⟩ | hold
    · have hoki : ok i = true := by
        simpa [StoreOp.failed] using hsucceed _ (List.mem_append_left _ List.mem_cons_self)
      rcases List.mem_cons.mp hmem with rfl | hmem
      · right
        unfold StoreOp.apply
        dsimp only
        rw [if_pos hoki, Store.view_insert, if_pos rfl]
        exact Function.update_self ..
      · exact Or.inl ⟨hmem, fun op hop => hsucceed op (List.mem_append_right _ hop)⟩
    · right
      unfold StoreOp.apply
      dsimp only
      split
      · rw [Store.view_insert, if_pos rfl]
        exact written_put (horder.grown o ho).feed halloc hq hold
      · exact hold

/-- The second loop of a task. -/
theorem Holds.deletions (rule : StoreRule rt platform Q I L) (horder : Orderly rt platform k w ran)
    (ho : w.objects.Alloc o)
    (hc : (w.objects.get o).index.calls[(callsOf o ran).length]? = some c) {ok : Bool}
    (hQ : Q c ok) {l : List Nat} (hl : ∀ id ∈ l, id ∈ c.erased) {log : List StoreOp}
    (h : Holds platform I L w ran log)
    (hok : ok = true → ∀ p ∈ c.inserted, (w.objects.get o).index.Written rt platform
      (Store.view (Archive.storeAfter log) (platform.hash (w.objects.get o).indexId)) p)
    {ops : List StoreOp}
    (hops : ops = l.map (.delObject (platform.hash (w.objects.get o).indexId))) :
    Holds platform I L w ran (log ++ ops) ∧
      (ok = true → ∀ p ∈ c.inserted, (w.objects.get o).index.Written rt platform
        (Store.view (Archive.storeAfter (log ++ ops))
          (platform.hash (w.objects.get o).indexId)) p) ∧
      ∀ id, id ∈ l ∨ Store.view (Archive.storeAfter log)
          (platform.hash (w.objects.get o).indexId) id = none →
        Store.view (Archive.storeAfter (log ++ ops))
          (platform.hash (w.objects.get o).indexId) id = none := by
  subst hops
  induction l generalizing log with
  | nil =>
    rw [List.map_nil, List.append_nil]
    exact ⟨h, hok, fun id hid => hid.resolve_left List.not_mem_nil⟩
  | cons id l ih =>
    have hid := hl id List.mem_cons_self
    have hdelete := h.delete rule horder ho hc hid hQ hok
    have hview : Store.view (Archive.storeAfter (log ++
        [.delObject (platform.hash (w.objects.get o).indexId) id]))
        (platform.hash (w.objects.get o).indexId) = Function.update (Store.view
          (Archive.storeAfter log) (platform.hash (w.objects.get o).indexId)) id none := by
      rw [Archive.storeAfter_concat]
      exact (Store.view_erase _ _ _ _).trans (if_pos rfl)
    have hok' : ok = true → ∀ p ∈ c.inserted, (w.objects.get o).index.Written rt platform
        (Store.view (Archive.storeAfter (log ++
          [.delObject (platform.hash (w.objects.get o).indexId) id]))
          (platform.hash (w.objects.get o).indexId)) p := by
      intro htrue p hp
      -- a call erases no id under which it hands a segment over
      have hne : (w.objects.get o).index.idOf p ≠ id :=
        (horder.grown o ho).feed.apart _ c hc id hid p ((Work.pending_cons hc).mpr (Or.inl hp))
      unfold Index.Written
      rw [hview, Function.update_of_ne hne]
      exact hok htrue p hp
    obtain ⟨hend, hwritten, hnone⟩ := ih (fun id hid => hl id (List.mem_cons_of_mem _ hid)) hdelete
      hok'
    rw [List.map_cons, ← List.singleton_append, ← List.append_assoc]
    refine ⟨hend, hwritten, fun id' hid' => hnone id' ?_⟩
    rw [hview]
    by_cases heq : id' = id
    · right
      rw [heq, Function.update_self]
    · rw [Function.update_of_ne heq]
      exact hid'.imp_left fun hmem => (List.mem_cons.mp hmem).resolve_left heq

/-- A task runs. -/
theorem Holds.task (rule : StoreRule rt platform Q I L) (horder : Orderly rt platform k w ran)
    (h : Holds platform I L w ran log) {task : Task} {tasks : List Task}
    (hnext : w.callbackRunner = task :: tasks) {ok : Nat → Bool} {ops : List StoreOp}
    (hops : ops = task.operations rt platform (w.objects.get task.object).index ok)
    (hQ : Q task.call (ops.all fun op => !op.failed)) :
    Holds platform I L { w with callbackRunner := tasks } (ran ++ [task]) (log ++ ops) := by
  obtain ⟨ho, hname, -⟩ := horder.accounted.queued task (hnext ▸ List.mem_cons_self)
  have hc := horder.accounted.next_call hnext
  obtain ⟨hput, hwritten⟩ := h.puts rule horder ho hc ok 0 (fun p hp => hp) rfl
  obtain ⟨hend, hfull, hnone⟩ := hput.deletions rule horder ho hc hQ (fun id hid => hid) (by
    intro hall p hp
    refine hwritten p (known_of_inserted horder ho (List.mem_of_getElem? hc) hp).1
      (Or.inl ⟨hp, fun op hop => ?_⟩)
    rw [hops, List.all_eq_true] at hall
    have hsucceed := hall op (List.mem_append_left _ (by
      unfold Task.puts
      rwa [← hname]))
    exact (Bool.not_eq_true' _).mp hsucceed) rfl
  rw [List.append_assoc, hname] at hend hfull hnone
  replace hend : Holds platform I L w ran (log ++ ops) := hops ▸ hend
  refine ⟨hend.known, fun o' ho' => ?_, hend.log⟩
  have hold := hend.objects o' ho'
  rw [callsOf_append]
  by_cases heq : o' = task.object
  · subst heq
    rw [callsOf_cons_self, List.length_append]
    refine rule.done (horder.grown _ ho) hc hQ ?_ ?_ hold
    · intro htrue p hp
      rw [hname, hops]
      exact hfull htrue p hp
    · intro id hid
      rw [hname, hops]
      exact hnone id (Or.inl hid)
  · have hnil : callsOf o' [task] = [] := by
      refine callsOf_eq_nil fun t ht heq' => heq ?_
      rw [← heq', List.mem_singleton.mp ht]
    rw [hnil, List.append_nil]
    exact hold

end Deliver

section Write

variable {k : Nat} {w : Writer B} {ran : List Task} {log : List StoreOp}

/-- What is stored is stored under drawn ids. -/
theorem Holds.drawn (horder : Orderly rt platform k w ran) (h : Holds platform I L w ran log)
    {bucket id : Nat} (hid : Store.view (Archive.storeAfter log) bucket id ≠ none) :
    ∃ m < w.draws, rt.rand m = id := by
  obtain ⟨o, ho, -, hknown⟩ := h.known bucket id hid
  exact horder.known_drawn ho hknown

/-- The bucket of a new object has nothing under the id it draws. -/
theorem Holds.table (rule : StoreRule rt platform Q I L) (horder : Orderly rt platform k w ran)
    (h : Holds platform I L w ran log) {env : Env Time} {w' : Writer B}
    (hstep : Writer.TableStep rt env w w') (hd : rt.Distinct w'.draws) :
    Holds platform I L w' ran log where
  known bucket id hid := by
    obtain ⟨o, ho, hbucket, hknown⟩ := h.known bucket id hid
    obtain ⟨ho', hget⟩ := hstep.keeps ho
    exact ⟨o, ho', hget ▸ hbucket, hget ▸ hknown⟩
  objects o ho := by
    rcases hstep.objects_eq with ⟨hobjects, -⟩ | ⟨i, s, config, hobjects, hdraws⟩
    · rw [hobjects] at ho ⊢
      exact h.objects o ho
    · rw [hobjects] at ho ⊢
      rcases Heap.alloc_cases ho with ⟨ho, hget⟩ | ⟨rfl, hget⟩
      · rw [hget]
        exact h.objects o ho
      · rw [hget, callsOf_eq_nil fun t ht => Nat.ne_of_lt (horder.accounted.ran t ht).1]
        refine rule.create config w.draws _ ?_
        by_contra hsome
        obtain ⟨m, hm, hm'⟩ := h.drawn horder hsome
        exact Nat.ne_of_lt hm (hd m (by omega) _ (by omega) hm')
  log := h.log

theorem Holds.settle (rule : StoreRule rt platform Q I L) (hrand : ∀ m, rt.rand m < 256 ^ 8)
    (hk : k + 1 < 256 ^ 8) (horder : Orderly rt platform k w ran)
    (h : Holds platform I L w ran log) {o : Nat} {index : Index B Text}
    {request : WriteRequest Vec} (hadd : "delete" ∉ request.attributes) (ho : w.objects.Alloc o)
    (hexec : ({ (w.objects.get o).index with draws := w.draws } : Index B Text).exec rt
      request.edit.op = .ok index) (hd : rt.Distinct index.draws) :
    Holds platform I L (w.settle o index) ran log := by
  have hcall := horder.call hrand hk hadd ho hexec hd (P := fun u =>
    (∀ id, (w.objects.get o).index.rest.Known id → u.Known id) ∧ w.draws ≤ u.index.draws ∧
      (callsOf o ran).length ≤ u.index.calls.length ∧ I (callsOf o ran).length u
        (Store.view (Archive.storeAfter log) (platform.hash (w.objects.get o).indexId))) ?_
    ⟨fun _ hid => hid, Nat.le_refl _, horder.callsOf_le ho, rule.drawn w.draws (h.objects o ho)⟩
  · obtain ⟨-, -, -, hknown, -, -, hI⟩ := hcall
    refine ⟨fun bucket id hid => ?_, fun o' ho' => ?_, h.log⟩
    · obtain ⟨o', ho', hbucket, hid⟩ := h.known bucket id hid
      refine ⟨o', ho', (w.settle_names o index o').1 ▸ hbucket, ?_⟩
      rw [Writer.settle_get]
      split
      · next heq =>
        subst heq
        exact hknown id hid
      · exact hid
    · rw [Writer.settle_get]
      split
      · next heq =>
        subst heq
        exact hI
      · exact h.objects o' ho'
  · rintro rows u u' hgrown hshape' hfeed' hd hgrowth ⟨hknown, hdraws, hn, hI⟩
    refine ⟨fun id hid => hgrowth.known_mono (hknown id hid), hdraws.trans hgrowth.draws_le,
      hn.trans hgrowth.calls_le,
      rule.grow hgrown hshape' hfeed' hd hn (fun id hid => ?_) hgrowth hI⟩
    obtain ⟨m, hm, hm'⟩ := h.drawn horder hid
    exact ⟨m, hm.trans_le hdraws, hm'⟩

end Write

/-- The rule over the runs of an archive whose requests add documents. -/
theorem of_run [LT Time] [DecidableLT Time] (rule : StoreRule rt platform Q I L)
    (hrand : ∀ m, rt.rand m < 256 ^ 8)
    {indexesConfig : AList fun _ : String => IndexConfig} {env : Env Time}
    {events : List (ArchiveEvent Vec Time)} {a : Archive B} (hlen : events.length < 256 ^ 8)
    (hadd : ∀ env request, ArchiveEvent.write env request ∈ events → "delete" ∉ request.attributes)
    (hrun : (Archive.start rt indexesConfig env).run rt platform events = .ok a)
    (hd : rt.Distinct a.writer.draws)
    (hQ : ∀ d ∈ a.ran, Q d.task.call (d.operations.all fun op => !op.failed)) :
    Orderly rt platform events.length a.writer (a.ran.map Delivery.task) ∧
      Holds platform I L a.writer (a.ran.map Delivery.task) a.log := by
  -- what has to be assumed of a run is assumed of its beginning as well
  refine (Archive.counts (P := fun k u => k < 256 ^ 8 → rt.Distinct u.writer.draws →
    (∀ d ∈ u.ran, Q d.task.call (d.operations.all fun op => !op.failed)) →
    Orderly rt platform k u.writer (u.ran.map Delivery.task) ∧
      Holds platform I L u.writer (u.ran.map Delivery.task) u.log) hrun
    ?_ ?_ ?_ ?_ ?_ ?_).2 hlen hd hQ
  · intro _ _ _
    exact ⟨.create rt platform indexesConfig, fun bucket id hid => absurd rfl hid,
      fun o ho => absurd ho (Nat.not_lt_zero o), rule.log_nil⟩
  · intro k u hu hk hd hQ
    obtain ⟨horder, hholds⟩ := hu (by omega) hd hQ
    exact ⟨horder.later, hholds⟩
  · intro env' _ k u w' hu hstep hk hd hQ
    obtain ⟨horder, hholds⟩ := hu hk (hd.mono hstep.draws_le) hQ
    exact ⟨horder.table hrand hstep hd, hholds.table rule horder hstep hd⟩
  · intro k u gauge hu hk hd hQ
    obtain ⟨horder, hholds⟩ := hu hk hd hQ
    exact ⟨horder.gauge gauge, hholds.known, hholds.objects, hholds.log⟩
  · intro env' request he k u o index hu ho hexec hk hd hQ
    have hle : u.writer.draws ≤ index.draws := draws_le_of_runs (Index.exec_runs hexec)
    obtain ⟨horder, hholds⟩ := hu (by omega) (hd.mono hle) hQ
    have hput := hadd env' request he
    exact ⟨horder.settle hrand hk hput ho hexec hd,
      hholds.settle rule hrand hk horder hput ho hexec hd⟩
  · intro k u task tasks ok hu hnext hk hd hQ
    obtain ⟨horder, hholds⟩ := hu (by omega) hd fun d hd => hQ d (List.mem_append_left _ hd)
    rw [Archive.delivered_tasks, Archive.delivered_log]
    exact ⟨(horder.delivered hnext).later, hholds.task rule horder hnext rfl
      (hQ _ (List.mem_append_right _ List.mem_cons_self))⟩

end StoreRule

end Vecodex
