import Vecodex.App.Archive
import Vecodex.Laws.SegmentIds
import Vecodex.Laws.Writer

/-!
# The store of a writer

Where all puts succeed an archive is a system without its searchers (`System.run_archive`).
`Archive.counts` is the induction over the runs of an archive. A put
and a deletion change the objects of one bucket (`Store.view_insert`, `Store.view_erase`).
-/

namespace Vecodex

open Lib

variable {B Vec Dist Time : Type}

/-! ## Systems as archives -/

/-- The tasks of a system are those whose puts succeed. -/
theorem Task.operations_transfer (rt : Runtime B Text Vec Dist) (platform : Platform B)
    (task : Task) (index : Index B Text) (store : Store) :
    (task.operations rt platform index fun _ => true).foldl StoreOp.apply store =
      task.transfer rt platform index store := by
  have hputs : ∀ (l : List Nat) (k : Nat) (store : Store),
      ((l.zipIdx k).map fun entry => StoreOp.putObject (platform.hash task.indexId)
        (index.idOf entry.1) (serializeSegment rt platform.toFiles (index.seg entry.1))
        true).foldl StoreOp.apply store =
      l.foldl (fun store p => store.insert (platform.hash task.indexId, index.idOf p)
        (serializeSegment rt platform.toFiles (index.seg p))) store := by
    intro l
    induction l with
    | nil => exact fun _ _ => rfl
    | cons p l ih => exact fun k store => ih (k + 1) _
  unfold Task.operations Task.transfer Task.puts Task.deletions
  rw [List.foldl_append, hputs, List.foldl_map]
  rfl

/-- The event of an archive for an event of a system. -/
def Event.archive : Event Vec Time → ArchiveEvent Vec Time
  | .write env request => .write env request
  | .task _ => .task fun _ => true

/-- No put of the archive failed. -/
def Archive.Lossless (a : Archive B) : Prop :=
  ∀ delivery ∈ a.ran, ∀ op ∈ delivery.operations, op.failed = false

theorem Task.operations_succeed {rt : Runtime B Text Vec Dist} {platform : Platform B}
    {task : Task} {index : Index B Text} {op : StoreOp}
    (hop : op ∈ task.operations rt platform index fun _ => true) : op.failed = false := by
  rcases List.mem_append.mp hop with hop | hop
  · obtain ⟨entry, -, rfl⟩ := List.mem_map.mp hop
    rfl
  · obtain ⟨id, -, rfl⟩ := List.mem_map.mp hop
    rfl

/-- The writer and the store of a system go through the run of an archive in which all puts
succeed. -/
theorem System.run_archive [LT Time] [DecidableLT Time] {rt : Runtime B Text Vec Dist}
    {platform : Platform B} {st st' : System B} {a : Archive B}
    {events : List (Event Vec Time)} (hwriter : a.writer = st.writer) (hstore : a.store = st.store)
    (hloss : a.Lossless) (hrun : st.run rt platform events = .ok st') :
    ∃ a', a.run rt platform (events.map Event.archive) = .ok a' ∧ a'.writer = st'.writer ∧
      a'.store = st'.store ∧ a'.Lossless := by
  induction events generalizing st a with
  | nil =>
    cases hrun
    exact ⟨a, rfl, hwriter, hstore, hloss⟩
  | cons e events ih =>
    unfold System.run at hrun
    rw [List.foldlM_cons] at hrun
    obtain ⟨u, hu, hrest⟩ := bind_eq_ok.mp hrun
    obtain ⟨b, hb, hbw, hbs, hbl⟩ : ∃ b, a.exec rt platform e.archive = .ok b ∧
        b.writer = u.writer ∧ b.store = u.store ∧ b.Lossless := by
      cases e with
      | write env request =>
        obtain ⟨⟨writer, status⟩, hwrite, heq⟩ := bind_eq_ok.mp hu
        obtain rfl := Except.ok.inj heq
        rw [← hwriter] at hwrite
        exact ⟨{ a with writer := writer }, bind_eq_ok.mpr ⟨_, hwrite, rfl⟩, rfl, hstore, hloss⟩
      | task env =>
        refine ⟨a.runTask rt platform fun _ => true, rfl, ?_⟩
        rcases runTask_eq_ok hu with ⟨hnone, rfl⟩ | ⟨task, tasks, searchers, hnext, -, rfl⟩
        · rw [← hwriter] at hnone
          unfold Archive.runTask
          rw [hnone]
          exact ⟨hwriter, hstore, hloss⟩
        · rw [← hwriter] at hnext
          unfold Archive.runTask
          rw [hnext]
          refine ⟨by rw [hwriter]; rfl, ?_, ?_⟩
          · show Archive.storeAfter (List.flatMap _ (a.ran ++ [_])) = _
            rw [List.flatMap_append, Archive.storeAfter, List.foldl_append, List.flatMap_singleton,
              hwriter]
            show List.foldl StoreOp.apply a.store _ = _
            rw [Task.operations_transfer, hstore]
            rfl
          · intro delivery hdelivery op hop
            rcases List.mem_append.mp hdelivery with hdelivery | hdelivery
            · exact hloss delivery hdelivery op hop
            · rw [List.mem_singleton.mp hdelivery] at hop
              exact Task.operations_succeed hop
    obtain ⟨a', ha', hend⟩ := ih hbw hbs hbl hrest
    refine ⟨a', ?_, hend⟩
    unfold Archive.run at ha' ⊢
    rw [List.map_cons, List.foldlM_cons]
    exact bind_eq_ok.mpr ⟨b, hb, ha'⟩

/-! ## Runs -/

namespace Archive

/-- The archive after the task ran. -/
def delivered (rt : Runtime B Text Vec Dist) (platform : Platform B) (a : Archive B) (task : Task)
    (tasks : List Task) (ok : Nat → Bool) : Archive B :=
  { writer := { a.writer with callbackRunner := tasks }
    ran := a.ran ++ [⟨task, task.operations rt platform (a.writer.objects.get task.object).index
      ok⟩] }

theorem delivered_tasks (rt : Runtime B Text Vec Dist) (platform : Platform B) (a : Archive B)
    (task : Task) (tasks : List Task) (ok : Nat → Bool) :
    (a.delivered rt platform task tasks ok).ran.map Delivery.task =
      a.ran.map Delivery.task ++ [task] :=
  List.map_append

theorem delivered_log (rt : Runtime B Text Vec Dist) (platform : Platform B) (a : Archive B)
    (task : Task) (tasks : List Task) (ok : Nat → Bool) :
    (a.delivered rt platform task tasks ok).log =
      a.log ++ task.operations rt platform (a.writer.objects.get task.object).index ok := by
  unfold log delivered
  rw [List.flatMap_append, List.flatMap_singleton]

/-- The induction over the runs of an archive. The first argument of `P` counts the events. -/
theorem counts [LT Time] [DecidableLT Time] {rt : Runtime B Text Vec Dist}
    {platform : Platform B} {indexesConfig : AList fun _ : String => IndexConfig} {env : Env Time}
    {events : List (ArchiveEvent Vec Time)} {a : Archive B} {P : Nat → Archive B → Prop}
    (hrun : (start rt indexesConfig env).run rt platform events = .ok a)
    (hblank : P 0 { writer := Writer.create rt indexesConfig, ran := [] })
    (hlater : ∀ k u, P k u → P (k + 1) u)
    (htable : ∀ env', (env' = env ∨ ∃ request, .write env' request ∈ events) → ∀ k u w', P k u →
      Writer.TableStep rt env' u.writer w' → P k { u with writer := w' })
    (hgauge : ∀ k u gauge, P k u → P k { u with writer := { u.writer with vectorsCount := gauge } })
    (hedit : ∀ env' request, .write env' request ∈ events → ∀ k u o index, P k u →
      u.writer.objects.Alloc o →
      ({ (u.writer.objects.get o).index with draws := u.writer.draws } : Index B Text).exec rt
        request.edit.op = .ok index → P (k + 1) { u with writer := u.writer.settle o index })
    (hdeliver : ∀ k u task tasks ok, P k u → u.writer.callbackRunner = task :: tasks →
      P (k + 1) (u.delivered rt platform task tasks ok)) :
    a.writer.Linked ∧ P events.length a := by
  have hstart : (start rt indexesConfig env).writer.Linked ∧ P 0 (start rt indexesConfig env) := by
    refine Writer.updateIndexesState_invariant (P := fun w => P 0 { writer := w, ran := [] })
      (fun w w' _ hw hstep => htable env (Or.inl rfl) 0 { writer := w, ran := [] } w' hw hstep) ?_
      hblank
    intro i s o ho
    cases ho
  rw [← Nat.zero_add events.length]
  refine foldlM_counts (P := fun k u => u.writer.Linked ∧ P k u) ?_ hstart hrun
  rintro k u v e he ⟨hlinked, hP⟩ hstep
  cases e with
  | task ok =>
    obtain rfl := Except.ok.inj hstep
    unfold runTask
    split
    · exact ⟨hlinked, hlater k u hP⟩
    · next task tasks hnext => exact ⟨hlinked, hdeliver k u task tasks ok hP hnext⟩
  | write env' request =>
    obtain ⟨⟨writer, status⟩, hwrite, hv⟩ := bind_eq_ok.mp hstep
    obtain rfl := Except.ok.inj hv
    exact Writer.processWriteRequest_invariant (P := fun w => P k { u with writer := w })
      (R := fun w => P (k + 1) { u with writer := w })
      (fun w w' _ hw hstep => htable env' (Or.inr ⟨request, he⟩) k { u with writer := w } w' hw
        hstep)
      (fun w hw => hlater k { u with writer := w } hw)
      (fun w o index _ hw halloc hexec => hedit env' request he k { u with writer := w } o index hw
        halloc hexec)
      (fun w gauge hw => hgauge (k + 1) { u with writer := w } gauge hw) hlinked hP hwrite

/-- While etcd lists the same shards, the tables keep all objects. -/
theorem tabled [LT Time] [DecidableLT Time] {rt : Runtime B Text Vec Dist}
    {platform : Platform B} {indexesConfig : AList fun _ : String => IndexConfig} {env : Env Time}
    {events : List (ArchiveEvent Vec Time)} {a : Archive B}
    (hrun : (start rt indexesConfig env).run rt platform events = .ok a)
    (hfixed : ∀ env' request, .write env' request ∈ events → env'.listShardIds = env.listShardIds) :
    a.writer.Linked ∧ a.writer.Tabled env.listShardIds := by
  refine counts (P := fun _ u => u.writer.Tabled env.listShardIds) hrun ?_ ?_ ?_ ?_ ?_ ?_
  · exact fun o ho => absurd ho (Nat.not_lt_zero o)
  · exact fun _ _ hu => hu
  · intro env' henv _ u w' hu hstep
    have hlist : env'.listShardIds = env.listShardIds := by
      rcases henv with rfl | ⟨request, he⟩
      · rfl
      · exact hfixed env' request he
    exact hlist ▸ Writer.Tabled.step (hlist ▸ hu) hstep
  · exact fun _ _ _ hu => hu
  · exact fun _ _ _ _ _ o index hu _ _ => hu.settle o index
  · exact fun _ _ _ _ _ hu _ => hu

end Archive

/-! ## The objects of a bucket -/

/-- The objects of a bucket, by their ids. -/
def Store.view (store : Store) (bucket id : Nat) : Option Bytes := store.lookup (bucket, id)

namespace Store

theorem view_insert (store : Store) (bucket id : Nat) (file : Bytes) (bucket' : Nat) :
    Store.view (store.insert (bucket, id) file) bucket' =
      if bucket' = bucket then Function.update (Store.view store bucket) id (some file)
      else Store.view store bucket' := by
  funext id'
  unfold Store.view
  split
  · next heq =>
    subst heq
    by_cases hid : id' = id
    · subst hid
      rw [Function.update_self, AList.lookup_insert]
    · rw [Function.update_of_ne hid]
      exact AList.lookup_insert_ne fun heq => hid (Prod.mk.inj heq).2
  · next hne => exact AList.lookup_insert_ne fun heq => hne (Prod.mk.inj heq).1

theorem view_erase (store : Store) (bucket id bucket' : Nat) :
    Store.view (store.erase (bucket, id)) bucket' =
      if bucket' = bucket then Function.update (Store.view store bucket) id none
      else Store.view store bucket' := by
  funext id'
  unfold Store.view
  split
  · next heq =>
    subst heq
    by_cases hid : id' = id
    · subst hid
      rw [Function.update_self, AList.lookup_erase]
    · rw [Function.update_of_ne hid]
      exact AList.lookup_erase_ne fun heq => hid (Prod.mk.inj heq).2
  · next hne => exact AList.lookup_erase_ne fun heq => hne (Prod.mk.inj heq).1

end Store

theorem Archive.storeAfter_concat (log : List StoreOp) (op : StoreOp) :
    storeAfter (log ++ [op]) = op.apply (storeAfter log) := by
  rw [storeAfter, List.foldl_append]
  rfl

/-! ## A small archive -/

/-- Points on a line; `rand()` counts up. -/
def countingRuntime : Runtime (List Nat) Text Nat Nat := lineRuntime Text fun m => m % 256 ^ 8

def countingBase : StoringBase countingRuntime.faiss := (flatBase_exact lineMetric).toStoringBase

theorem countingRuntime_lt (m : Nat) : countingRuntime.rand m < 256 ^ 8 :=
  Nat.mod_lt m (by decide)

theorem countingRuntime_distinct : countingRuntime.Distinct 4 := by
  intro m hm n hn heq
  replace heq : m % 256 ^ 8 = n % 256 ^ 8 := heq
  rwa [Nat.mod_eq_of_lt (by omega), Nat.mod_eq_of_lt (by omega)] at heq

/-- Two documents are added, and their segments joined. The last task puts the joined segment, with
the given outcome, and deletes the objects of the two others. -/
def joinedAdds (ok : Bool) : List (ArchiveEvent Nat Nat) :=
  [.write (docsEnv ["east"] ["host"]) (addRequest 97 10), .task fun _ => true,
    .write (docsEnv ["east"] ["host"]) (addRequest 98 20), .task fun _ => true, .task fun _ => ok]

theorem joinedAdds_write {ok : Bool} {env : Env Nat} {request : WriteRequest Nat}
    (h : .write env request ∈ joinedAdds ok) :
    env = docsEnv ["east"] ["host"] ∧ "delete" ∉ request.attributes := by
  simp only [joinedAdds, List.mem_cons, ArchiveEvent.write.injEq, reduceCtorEq, List.not_mem_nil,
    false_or, or_false] at h
  rcases h with ⟨rfl, rfl⟩ | ⟨rfl, rfl⟩
  · exact ⟨rfl, by decide⟩
  · exact ⟨rfl, by decide⟩

end Vecodex
