import Vecodex.App.System
import Vecodex.Laws.Codec
import Vecodex.Laws.SegmentIds

/-!
# What an event can do to the system

Every event is a sequence of few things: the tables of the writer follow etcd (`TableStep`), a
gauge is set, a call changes one index object, or a task is delivered. `System.counts` is the
induction this gives: what holds of a system without shards, and what these four keep, holds after
every run.

The pointers of the tables lead to objects that carry the names under which they are found
(`Writer.Linked`), so different shards have different objects.
-/

namespace Vecodex

open Lib
open Relation (ReflTransGen)

variable {B Vec Dist Time : Type}

namespace Writer

/-- The pointers of the tables lead to objects with the right names. -/
def Linked (w : Writer B) : Prop :=
  ∀ i s o, (w.table i).lookup s = some o →
    w.objects.Alloc o ∧ (w.objects.get o).indexId = i ∧ (w.objects.get o).shardId = s

theorem table_insert {w : Writer B} {shards : AList fun _ : String => AList fun _ : String => Nat}
    {i : String} {t : AList fun _ : String => Nat} (hshards : w.shards = shards.insert i t)
    (j : String) : w.table j = if j = i then t else (shards.lookup j).getD ∅ := by
  unfold table
  rw [hshards]
  split
  · next hj =>
    rw [hj, AList.lookup_insert]
    rfl
  · next hj => rw [AList.lookup_insert_ne hj]

/-- A new table is empty, so opening it changes no table. -/
theorem table_open {w : Writer B} {i : String} (absent : i ∉ w.shards) (j : String) :
    ({ w with shards := w.shards.insert i ∅ } : Writer B).table j = w.table j := by
  rw [table_insert rfl]
  split
  · next hj =>
    rw [hj, table, AList.lookup_eq_none.mpr absent]
    rfl
  · rfl

theorem table_dropShard (i : String) (w : Writer B) (s j : String) :
    (dropShard i w s).table j = if j = i then (w.table i).erase s else w.table j :=
  table_insert rfl j

theorem table_addShard (rt : Runtime B Text Vec Dist) (i : String) (config : IndexConfig)
    (w : Writer B) (s j : String) :
    (addShard rt i config w s).table j =
      if j = i then (w.table i).insert s w.objects.next else w.table j :=
  table_insert rfl j

/-! ## `updateIndexesState` -/

/-- One change of the tables, as the answers of etcd ask for it. -/
inductive TableStep (rt : Runtime B Text Vec Dist) (env : Env Time) : Writer B → Writer B → Prop
  | forget (w : Writer B) (i : String) (unlisted : env.listShardIds i = []) :
    TableStep rt env w { w with shards := w.shards.erase i }
  | empty (w : Writer B) (i : String) (absent : i ∉ w.shards) :
    TableStep rt env w { w with shards := w.shards.insert i ∅ }
  | drop (w : Writer B) (i s : String) (unlisted : s ∉ env.listShardIds i) :
    TableStep rt env w (dropShard i w s)
  | add (w : Writer B) (i s : String) (config : IndexConfig) (listed : s ∈ env.listShardIds i)
      (absent : s ∉ w.table i) :
    TableStep rt env w (addShard rt i config w s)

theorem foldl_dropShard_steps (rt : Runtime B Text Vec Dist) (env : Env Time) {i : String}
    {ss : List String} (hss : ∀ s ∈ ss, s ∉ env.listShardIds i) (w : Writer B) :
    ReflTransGen (TableStep rt env) w (ss.foldl (dropShard i) w) := by
  induction ss generalizing w with
  | nil => exact .refl
  | cons s ss ih =>
    exact .head (.drop w i s (hss s List.mem_cons_self))
      (ih (fun s hs => hss s (List.mem_cons_of_mem _ hs)) _)

theorem notMem_foldl_dropShard {i s : String} {w : Writer B} (hs : s ∉ w.table i)
    (ss : List String) : s ∉ (ss.foldl (dropShard i) w).table i := by
  induction ss generalizing w with
  | nil => exact hs
  | cons s' ss ih =>
    refine ih ?_
    rw [table_dropShard, if_pos rfl, AList.mem_erase]
    exact fun h => hs h.2

theorem foldl_addShard_steps (rt : Runtime B Text Vec Dist) (env : Env Time) {i : String}
    (config : IndexConfig) {ss : List String} (hnodup : ss.Nodup)
    (hss : ∀ s ∈ ss, s ∈ env.listShardIds i) {w : Writer B} (hnew : ∀ s ∈ ss, s ∉ w.table i) :
    ReflTransGen (TableStep rt env) w (ss.foldl (addShard rt i config) w) := by
  induction ss generalizing w with
  | nil => exact .refl
  | cons s ss ih =>
    obtain ⟨hs, hnodup⟩ := List.nodup_cons.mp hnodup
    refine .head (.add w i s config (hss s List.mem_cons_self) (hnew s List.mem_cons_self))
      (ih hnodup (fun s hs => hss s (List.mem_cons_of_mem _ hs)) fun s' hs' => ?_)
    rw [table_addShard, if_pos rfl, AList.mem_insert, not_or]
    exact ⟨ne_of_mem_of_not_mem hs' hs, hnew s' (List.mem_cons_of_mem _ hs')⟩

theorem mem_setOf {ss : List String} {s : String} : s ∈ setOf ss ↔ s ∈ ss := by
  rw [setOf, List.mem_insertionSort, List.mem_dedup]

theorem nodup_setOf (ss : List String) : (setOf ss).Nodup :=
  (List.perm_insertionSort _ _).nodup_iff.mpr (List.nodup_dedup ss)

theorem updateIndexState_steps (rt : Runtime B Text Vec Dist) (env : Env Time) (w : Writer B)
    (entry : Σ _ : String, IndexConfig) :
    ReflTransGen (TableStep rt env) w (w.updateIndexState rt env entry) := by
  unfold updateIndexState
  dsimp only
  split
  · next hnone => exact .single (.forget w entry.1 hnone)
  · have hopen : ReflTransGen (TableStep rt env) w
        (if entry.1 ∈ w.shards then w else { w with shards := w.shards.insert entry.1 ∅ }) := by
      split
      · exact .refl
      · next habsent => exact .single (.empty w entry.1 habsent)
    refine hopen.trans ((foldl_dropShard_steps rt env (fun s hs => ?_) _).trans
      (foldl_addShard_steps rt env _ ((nodup_setOf _).filter _) (fun s hs => ?_) fun s hs => ?_))
    · exact of_decide_eq_true (List.mem_filter.mp hs).2
    · exact mem_setOf.mp (List.mem_filter.mp hs).1
    · exact notMem_foldl_dropShard (of_decide_eq_true (List.mem_filter.mp hs).2) _

theorem updateIndexesState_steps (rt : Runtime B Text Vec Dist) (env : Env Time) (w : Writer B) :
    ReflTransGen (TableStep rt env) w (w.updateIndexesState rt env) := by
  unfold updateIndexesState
  generalize w.indexesCreateAgrs.entries = entries
  induction entries generalizing w with
  | nil => exact .refl
  | cons entry entries ih => exact (updateIndexState_steps rt env w entry).trans (ih _)

/-! ## Calls -/

end Writer

/-- What a write request asks of an index. -/
def WriteRequest.edit (request : WriteRequest Vec) : Edit Text Vec :=
  if "delete" ∉ request.attributes then .add [(request.id, request.vectorData)]
  else .erase [request.id]

namespace Writer

theorem call_eq_ok {rt : Runtime B Text Vec Dist} {w w' : Writer B} {i s : String}
    {edit : Edit Text Vec} (h : w.call rt i s edit = .ok w') :
    ∃ o index, (w.table i).lookup s = some o ∧
      ({ (w.objects.get o).index with draws := w.draws } : Index B Text).exec rt edit.op =
        .ok index ∧ w' = w.settle o index := by
  unfold call at h
  split at h
  · cases h
  · next o ho =>
    obtain ⟨index, hindex, hw'⟩ := bind_eq_ok.mp h
    exact ⟨o, index, ho, hindex, (Except.ok.inj hw').symm⟩

/-- A request that returns was refused, or made its call and set a gauge. -/
theorem processWriteRequest_eq_ok [LT Time] [DecidableLT Time] {rt : Runtime B Text Vec Dist}
    {w w' : Writer B} {env : Env Time} {request : WriteRequest Vec} {status : Status}
    (h : w.processWriteRequest rt env request = .ok (w', status)) :
    w' = w.updateIndexesState rt env ∨
      ∃ i s called gauge, (w.updateIndexesState rt env).call rt i s request.edit = .ok called ∧
        w' = { called with vectorsCount := gauge } := by
  unfold processWriteRequest at h
  dsimp only at h
  split at h
  · cases h
    exact Or.inl rfl
  · next i _ =>
    split at h
    · cases h
      exact Or.inl rfl
    · right
      split at h
      · next hadd =>
        obtain ⟨called, hcall, hw'⟩ := bind_eq_ok.mp h
        cases hw'
        exact ⟨i, _, called, _, by rwa [WriteRequest.edit, if_pos hadd], rfl⟩
      · next hdelete =>
        obtain ⟨called, hcall, hw'⟩ := bind_eq_ok.mp h
        cases hw'
        exact ⟨i, i, called, _, by rwa [WriteRequest.edit, if_neg hdelete], rfl⟩

/-! ## Pointers -/

theorem Linked.step {rt : Runtime B Text Vec Dist} {env : Env Time} {w w' : Writer B}
    (h : w.Linked) (hstep : TableStep rt env w w') : w'.Linked := by
  intro i s o ho
  cases hstep with
  | forget j unlisted =>
    refine h i s o ?_
    unfold table at ho ⊢
    dsimp only at ho
    by_cases hi : i = j
    · subst hi
      rw [AList.lookup_erase] at ho
      cases ho
    · rwa [AList.lookup_erase_ne hi] at ho
  | empty j absent =>
    rw [table_open absent] at ho
    exact h i s o ho
  | drop j s' unlisted =>
    rw [table_dropShard] at ho
    split at ho
    · next hi =>
      subst hi
      by_cases hs : s = s'
      · subst hs
        rw [AList.lookup_erase] at ho
        cases ho
      · rw [AList.lookup_erase_ne hs] at ho
        exact h i s o ho
    · exact h i s o ho
  | add j s' config listed absent =>
    have hold : ∀ {i s o}, (w.table i).lookup s = some o →
        (addShard rt j config w s').objects.Alloc o ∧
          ((addShard rt j config w s').objects.get o).indexId = i ∧
          ((addShard rt j config w s').objects.get o).shardId = s := by
      intro i s o ho
      obtain ⟨halloc, hnames⟩ := h i s o ho
      refine ⟨Nat.lt_succ_of_lt halloc, ?_⟩
      rwa [show (addShard rt j config w s').objects.get o = w.objects.get o from
        Heap.alloc_get_of_alloc _ halloc]
    rw [table_addShard] at ho
    split at ho
    · next hi =>
      subst hi
      by_cases hs : s = s'
      · subst hs
        rw [AList.lookup_insert] at ho
        obtain rfl := Option.some.inj ho
        have hget : (addShard rt i config w s).objects.get w.objects.next =
            ⟨Index.create rt config true w.draws, i, s⟩ := Heap.alloc_get_next _ _
        refine ⟨Nat.lt_succ_self _, ?_⟩
        rw [hget]
        exact ⟨rfl, rfl⟩
      · rw [AList.lookup_insert_ne hs] at ho
        exact hold ho
    · exact hold ho

theorem settle_get (w : Writer B) (o : Nat) (index : Index B Text) (o' : Nat) :
    (w.settle o index).objects.get o' =
      if o' = o then { w.objects.get o with index := index } else w.objects.get o' := by
  split
  · next h =>
    subst h
    exact Heap.set_get_self _ _ _
  · next h => exact Heap.set_get_of_ne _ h

/-- A call renames no object. -/
theorem settle_names (w : Writer B) (o : Nat) (index : Index B Text) (o' : Nat) :
    ((w.settle o index).objects.get o').indexId = (w.objects.get o').indexId ∧
      ((w.settle o index).objects.get o').shardId = (w.objects.get o').shardId := by
  rw [settle_get]
  split
  · next h =>
    subst h
    exact ⟨rfl, rfl⟩
  · exact ⟨rfl, rfl⟩

theorem Linked.settle {w : Writer B} (h : w.Linked) (o : Nat) (index : Index B Text) :
    (w.settle o index).Linked := by
  intro i s o' ho'
  obtain ⟨halloc, hi, hs⟩ := h i s o' ho'
  have hnames := w.settle_names o index o'
  exact ⟨halloc, hnames.1.trans hi, hnames.2.trans hs⟩

end Writer

/-! ## Runs -/

namespace Writer

/-- What the changes of the tables keep, a look at etcd keeps. -/
theorem updateIndexesState_invariant {rt : Runtime B Text Vec Dist} {env : Env Time}
    {P : Writer B → Prop}
    (htable : ∀ w w', w.Linked → P w → TableStep rt env w w' → P w') {w : Writer B}
    (hlinked : w.Linked) (hw : P w) :
    (w.updateIndexesState rt env).Linked ∧ P (w.updateIndexesState rt env) := by
  have hsteps := w.updateIndexesState_steps rt env
  generalize w.updateIndexesState rt env = w' at hsteps
  induction hsteps with
  | refl => exact ⟨hlinked, hw⟩
  | tail _ hstep ih => exact ⟨ih.1.step hstep, htable _ _ ih.1 ih.2 hstep⟩

/-- A request leads from what the changes of the tables keep to what holds after its call and
whatever the gauges are. -/
theorem processWriteRequest_invariant [LT Time] [DecidableLT Time] {rt : Runtime B Text Vec Dist}
    {env : Env Time} {request : WriteRequest Vec} {P R : Writer B → Prop}
    (htable : ∀ w w', w.Linked → P w → TableStep rt env w w' → P w') (hrefused : ∀ w, P w → R w)
    (hedit : ∀ (w : Writer B) o index, w.Linked → P w → w.objects.Alloc o →
      ({ (w.objects.get o).index with draws := w.draws } : Index B Text).exec rt request.edit.op =
        .ok index → R (w.settle o index))
    (hgauge : ∀ (w : Writer B) gauge, R w → R { w with vectorsCount := gauge }) {w w' : Writer B}
    {status : Status} (hlinked : w.Linked) (hw : P w)
    (h : w.processWriteRequest rt env request = .ok (w', status)) : w'.Linked ∧ R w' := by
  obtain ⟨hlinked', hP'⟩ := updateIndexesState_invariant htable hlinked hw
  rcases processWriteRequest_eq_ok h with rfl | ⟨i, s, called, gauge, hcall, rfl⟩
  · exact ⟨hlinked', hrefused _ hP'⟩
  · obtain ⟨o, index, ho, hexec, rfl⟩ := call_eq_ok hcall
    exact ⟨hlinked'.settle o index,
      hgauge _ gauge (hedit _ o index hlinked' hP' (hlinked' i s o ho).1 hexec)⟩

end Writer

namespace System

/-- The system before the writer has looked at etcd. -/
def blank (rt : Runtime B Text Vec Dist) (indexesConfig : AList fun _ : String => IndexConfig)
    (searchersConfigs : String → Option (List ShardConfig)) : System B :=
  { writer := Writer.create rt indexesConfig
    store := ∅
    searchers := fun host => (searchersConfigs host).map (Searcher.create rt)
    sent := [] }

/-- The system after the task ran and left the searchers as given. -/
def delivered (rt : Runtime B Text Vec Dist) (platform : Platform B) (st : System B) (task : Task)
    (tasks : List Task) (searchers : String → Option (Searcher B)) : System B :=
  { writer := { st.writer with callbackRunner := tasks }
    store := task.transfer rt platform (st.writer.objects.get task.object).index st.store
    searchers := searchers
    sent := st.sent ++ [⟨task, task.request (st.writer.objects.get task.object).index⟩] }

theorem runTask_eq_ok {rt : Runtime B Text Vec Dist} {platform : Platform B} {st st' : System B}
    {env : Env Time} (h : st.runTask rt platform env = .ok st') :
    st.writer.callbackRunner = [] ∧ st' = st ∨
      ∃ task tasks searchers, st.writer.callbackRunner = task :: tasks ∧
        (env.listSearcherHosts task.indexId task.shardId).foldlM
          (updateIndex platform
            (task.transfer rt platform (st.writer.objects.get task.object).index st.store)
            (task.request (st.writer.objects.get task.object).index)) st.searchers =
          .ok searchers ∧
        st' = st.delivered rt platform task tasks searchers := by
  unfold runTask at h
  split at h
  · next hnone =>
    cases h
    exact Or.inl ⟨hnone, rfl⟩
  · next task tasks hnext =>
    obtain ⟨searchers, hsearchers, hst'⟩ := bind_eq_ok.mp h
    exact Or.inr ⟨task, tasks, searchers, hnext, hsearchers, (Except.ok.inj hst').symm⟩

/-- One event. -/
theorem exec_counts [LT Time] [DecidableLT Time] {rt : Runtime B Text Vec Dist}
    {platform : Platform B} {e : Event Vec Time} {P : Nat → System B → Prop} {k : Nat}
    {u v : System B} (hstep : u.exec rt platform e = .ok v)
    (hlater : ∀ k u, P k u → P (k + 1) u)
    (htable : ∀ k u w', u.writer.Linked → P k u → Writer.TableStep rt e.env u.writer w' →
      P k { u with writer := w' })
    (hgauge : ∀ k u gauge, P k u → P k { u with writer := { u.writer with vectorsCount := gauge } })
    (hedit : ∀ env request, e = .write env request → ∀ k u o index, u.writer.Linked →
      P k u → u.writer.objects.Alloc o →
      ({ (u.writer.objects.get o).index with draws := u.writer.draws } : Index B Text).exec rt
        request.edit.op = .ok index → P (k + 1) { u with writer := u.writer.settle o index })
    (hdeliver : ∀ env, e = .task env → ∀ k u task tasks searchers, u.writer.Linked →
      P k u → u.writer.callbackRunner = task :: tasks →
      (env.listSearcherHosts task.indexId task.shardId).foldlM
        (updateIndex platform
          (task.transfer rt platform (u.writer.objects.get task.object).index u.store)
          (task.request (u.writer.objects.get task.object).index)) u.searchers = .ok searchers →
      P (k + 1) (u.delivered rt platform task tasks searchers))
    (hlinked : u.writer.Linked) (hP : P k u) : v.writer.Linked ∧ P (k + 1) v := by
  cases e with
  | task env =>
    rcases runTask_eq_ok hstep with ⟨-, rfl⟩ | ⟨task, tasks, searchers, hnext, hsearchers, rfl⟩
    · exact ⟨hlinked, hlater k _ hP⟩
    · exact ⟨hlinked, hdeliver env rfl k u task tasks searchers hlinked hP hnext hsearchers⟩
  | write env request =>
    obtain ⟨⟨writer, status⟩, hwrite, hv⟩ := bind_eq_ok.mp hstep
    obtain rfl := Except.ok.inj hv
    exact Writer.processWriteRequest_invariant (P := fun w => P k { u with writer := w })
      (R := fun w => P (k + 1) { u with writer := w })
      (fun w w' hlinked hw hstep => htable k { u with writer := w } w' hlinked hw hstep)
      (fun w hw => hlater k { u with writer := w } hw)
      (fun w o index hlinked hw halloc hexec => hedit env request rfl k { u with writer := w } o
        index hlinked hw halloc hexec)
      (fun w gauge hw => hgauge (k + 1) { u with writer := w } gauge hw) hlinked hP hwrite

/-- The induction over the runs of a system. The first argument of `P` counts the events. -/
theorem counts [LT Time] [DecidableLT Time] {rt : Runtime B Text Vec Dist}
    {platform : Platform B} {indexesConfig : AList fun _ : String => IndexConfig}
    {searchersConfigs : String → Option (List ShardConfig)} {env : Env Time}
    {events : List (Event Vec Time)} {st : System B} {P : Nat → System B → Prop}
    (hrun : (start rt indexesConfig searchersConfigs env).run rt platform events = .ok st)
    (hblank : P 0 (blank rt indexesConfig searchersConfigs))
    (hlater : ∀ k u, P k u → P (k + 1) u)
    (htable : ∀ env', (env' = env ∨ ∃ e ∈ events, env' = e.env) → ∀ k u w', u.writer.Linked →
      P k u → Writer.TableStep rt env' u.writer w' → P k { u with writer := w' })
    (hgauge : ∀ k u gauge, P k u → P k { u with writer := { u.writer with vectorsCount := gauge } })
    (hedit : ∀ env' request, .write env' request ∈ events → ∀ k u o index, u.writer.Linked →
      P k u → u.writer.objects.Alloc o →
      ({ (u.writer.objects.get o).index with draws := u.writer.draws } : Index B Text).exec rt
        request.edit.op = .ok index → P (k + 1) { u with writer := u.writer.settle o index })
    (hdeliver : ∀ env', .task env' ∈ events → ∀ k u task tasks searchers, u.writer.Linked →
      P k u → u.writer.callbackRunner = task :: tasks →
      (env'.listSearcherHosts task.indexId task.shardId).foldlM
        (updateIndex platform
          (task.transfer rt platform (u.writer.objects.get task.object).index u.store)
          (task.request (u.writer.objects.get task.object).index)) u.searchers = .ok searchers →
      P (k + 1) (u.delivered rt platform task tasks searchers)) :
    st.writer.Linked ∧ P events.length st := by
  have hstart : (start rt indexesConfig searchersConfigs env).writer.Linked ∧
      P 0 (start rt indexesConfig searchersConfigs env) := by
    let u : System B := blank rt indexesConfig searchersConfigs
    refine Writer.updateIndexesState_invariant (P := fun w => P 0 { u with writer := w })
      (fun w w' hlinked hw hstep => htable env (Or.inl rfl) 0 { u with writer := w } w' hlinked hw
        hstep) ?_ hblank
    intro i s o ho
    cases ho
  rw [← Nat.zero_add events.length]
  refine foldlM_counts (P := fun k u => u.writer.Linked ∧ P k u) ?_ hstart hrun
  rintro k u v e he ⟨hlinked, hP⟩ hstep
  exact exec_counts hstep hlater (htable e.env (Or.inr ⟨e, he, rfl⟩)) hgauge
    (fun env' request heq => hedit env' request (heq ▸ he))
    (fun env' heq => hdeliver env' (heq ▸ he)) hlinked hP

theorem invariant [LT Time] [DecidableLT Time] {rt : Runtime B Text Vec Dist}
    {platform : Platform B} {indexesConfig : AList fun _ : String => IndexConfig}
    {searchersConfigs : String → Option (List ShardConfig)} {env : Env Time}
    {events : List (Event Vec Time)} {st : System B} {P : System B → Prop}
    (hrun : (start rt indexesConfig searchersConfigs env).run rt platform events = .ok st)
    (hblank : P (blank rt indexesConfig searchersConfigs))
    (htable : ∀ env', (env' = env ∨ ∃ e ∈ events, env' = e.env) → ∀ u w', u.writer.Linked → P u →
      Writer.TableStep rt env' u.writer w' → P { u with writer := w' })
    (hgauge : ∀ u gauge, P u → P { u with writer := { u.writer with vectorsCount := gauge } })
    (hedit : ∀ env' request, .write env' request ∈ events → ∀ u o index, u.writer.Linked → P u →
      u.writer.objects.Alloc o →
      ({ (u.writer.objects.get o).index with draws := u.writer.draws } : Index B Text).exec rt
        request.edit.op = .ok index → P { u with writer := u.writer.settle o index })
    (hdeliver : ∀ env', .task env' ∈ events → ∀ u task tasks searchers, u.writer.Linked → P u →
      u.writer.callbackRunner = task :: tasks →
      (env'.listSearcherHosts task.indexId task.shardId).foldlM
        (updateIndex platform
          (task.transfer rt platform (u.writer.objects.get task.object).index u.store)
          (task.request (u.writer.objects.get task.object).index)) u.searchers = .ok searchers →
      P (u.delivered rt platform task tasks searchers)) :
    st.writer.Linked ∧ P st :=
  counts (P := fun _ => P) hrun hblank (fun _ _ hu => hu) (fun env' henv _ => htable env' henv)
    (fun _ => hgauge) (fun env' request he _ => hedit env' request he)
    (fun env' he _ => hdeliver env' he)

end System

/-! ## Index objects -/

/-- A call on an object is a run of its index, which first finds that others have drawn. -/
theorem Writer.exec_runs {rt : Runtime B Text Vec Dist} {idx idx' : Index B Text} {draws : Nat}
    {e : Edit Text Vec} (hdraws : idx.draws ≤ draws)
    (h : ({ idx with draws := draws } : Index B Text).exec rt e.op = .ok idx') :
    Runs (Step rt) e.op.changes idx.rest idx'.rest := by
  have helse : ({ idx with draws := draws } : Index B Text) =
      idx.elsewhere (draws - idx.draws) := by
    unfold Index.elsewhere
    rw [Nat.add_sub_cancel' hdraws]
  rw [helse] at h
  have hstep : Step rt [] idx.rest (idx.elsewhere (draws - idx.draws)).rest :=
    .elsewhere idx.rest (draws - idx.draws)
  exact (Runs.single hstep).trans (Index.exec_runs h)

/-- No object has drawn more often than its process. -/
def Writer.Counts (w : Writer B) : Prop :=
  ∀ o, w.objects.Alloc o → (w.objects.get o).index.draws ≤ w.draws

namespace Writer

/-- The objects after a table step: the old ones, and perhaps a new one. -/
theorem TableStep.objects_eq {rt : Runtime B Text Vec Dist} {env : Env Time} {w w' : Writer B}
    (hstep : TableStep rt env w w') :
    w'.objects = w.objects ∧ w'.draws = w.draws ∨
      ∃ i s config, w'.objects = w.objects.alloc ⟨Index.create rt config true w.draws, i, s⟩ ∧
        w'.draws = w.draws + 1 := by
  cases hstep with
  | forget i unlisted => exact Or.inl ⟨rfl, rfl⟩
  | empty i absent => exact Or.inl ⟨rfl, rfl⟩
  | drop i s unlisted => exact Or.inl ⟨rfl, rfl⟩
  | add i s config listed absent => exact Or.inr ⟨i, s, config, rfl, rfl⟩

/-- The objects of the writer outlive their entries in the tables. -/
theorem TableStep.keeps {rt : Runtime B Text Vec Dist} {env : Env Time} {w w' : Writer B}
    (hstep : TableStep rt env w w') {o : Nat} (ho : w.objects.Alloc o) :
    w'.objects.Alloc o ∧ w'.objects.get o = w.objects.get o := by
  rcases hstep.objects_eq with ⟨hobjects, -⟩ | ⟨i, s, config, hobjects, -⟩
  · rw [hobjects]
    exact ⟨ho, rfl⟩
  · rw [hobjects]
    exact ⟨Nat.lt_succ_of_lt ho, Heap.alloc_get_of_alloc _ ho⟩

/-- What holds of a new index and of all objects holds of all objects after a table step. -/
theorem forall_objects_step {rt : Runtime B Text Vec Dist} {env : Env Time} {w w' : Writer B}
    (hstep : TableStep rt env w w') {Q : Index B Text → Prop}
    (hcreate : ∀ config, Q (Index.create rt config true w.draws))
    (h : ∀ o, w.objects.Alloc o → Q (w.objects.get o).index) :
    ∀ o, w'.objects.Alloc o → Q (w'.objects.get o).index := by
  rcases hstep.objects_eq with ⟨hobjects, -⟩ | ⟨i, s, config, hobjects, -⟩
  · rw [hobjects]
    exact h
  · rw [hobjects]
    intro o ho
    rcases Heap.alloc_cases ho with ⟨ho, hget⟩ | ⟨-, hget⟩
    · rw [hget]
      exact h o ho
    · rw [hget]
      exact hcreate config

theorem TableStep.draws_le {rt : Runtime B Text Vec Dist} {env : Env Time} {w w' : Writer B}
    (hstep : TableStep rt env w w') : w.draws ≤ w'.draws := by
  rcases hstep.objects_eq with ⟨-, hdraws⟩ | ⟨i, s, config, -, hdraws⟩
  · exact hdraws.ge
  · exact hdraws ▸ Nat.le_succ _

theorem Counts.step {rt : Runtime B Text Vec Dist} {env : Env Time} {w w' : Writer B}
    (h : w.Counts) (hstep : TableStep rt env w w') : w'.Counts := by
  rcases hstep.objects_eq with ⟨hobjects, hdraws⟩ | ⟨i, s, config, hobjects, hdraws⟩
  · unfold Counts
    rw [hobjects, hdraws]
    exact h
  · unfold Counts
    rw [hobjects, hdraws]
    intro o ho
    rcases Heap.alloc_cases ho with ⟨ho, hget⟩ | ⟨-, hget⟩
    · rw [hget]
      exact Nat.le_succ_of_le (h o ho)
    · rw [hget]
      exact Nat.le_refl _

/-- While etcd lists the same shards, every object is one of a listed shard, and in its table. -/
def Tabled (listShardIds : String → List String) (w : Writer B) : Prop :=
  ∀ o, w.objects.Alloc o → (w.objects.get o).shardId ∈ listShardIds (w.objects.get o).indexId ∧
    (w.table (w.objects.get o).indexId).lookup (w.objects.get o).shardId = some o

namespace Tabled

variable {listShardIds : String → List String} {w : Writer B}

theorem step {rt : Runtime B Text Vec Dist} {env : Env Time} (h : w.Tabled env.listShardIds)
    {w' : Writer B} (hstep : TableStep rt env w w') : w'.Tabled env.listShardIds := by
  intro o ho
  cases hstep with
  | forget i unlisted =>
    obtain ⟨hlisted, hlookup⟩ := h o ho
    refine ⟨hlisted, ?_⟩
    have hne : (w.objects.get o).indexId ≠ i := by
      rintro rfl
      rw [unlisted] at hlisted
      cases hlisted
    unfold table at hlookup ⊢
    dsimp only
    rwa [AList.lookup_erase_ne hne]
  | empty i absent =>
    rw [table_open absent]
    exact h o ho
  | drop i s unlisted =>
    obtain ⟨hlisted, hlookup⟩ := h o ho
    refine ⟨hlisted, ?_⟩
    rw [table_dropShard]
    split
    · next heq =>
      have hne : (w.objects.get o).shardId ≠ s := fun hs => unlisted (hs ▸ heq ▸ hlisted)
      rw [← heq]
      exact (AList.lookup_erase_ne hne).trans hlookup
    · exact hlookup
  | add i s config listed absent =>
    rcases Heap.alloc_cases ho with ⟨ho, hget⟩ | ⟨rfl, hget⟩
    · obtain ⟨hlisted, hlookup⟩ := h o ho
      replace hget : (addShard rt i config w s).objects.get o = w.objects.get o := hget
      rw [hget, table_addShard]
      refine ⟨hlisted, ?_⟩
      split
      · next heq =>
        have hne : (w.objects.get o).shardId ≠ s := by
          rintro rfl
          exact absent (heq ▸ AList.lookup_isSome.mp (Option.isSome_of_eq_some hlookup))
        rw [← heq]
        exact (AList.lookup_insert_ne hne).trans hlookup
      · exact hlookup
    · replace hget : (addShard rt i config w s).objects.get w.objects.next =
          ⟨Index.create rt config true w.draws, i, s⟩ := hget
      rw [hget, table_addShard, if_pos rfl]
      exact ⟨listed, AList.lookup_insert _⟩

theorem settle (h : w.Tabled listShardIds) (o : Nat) (index : Index B Text) :
    (w.settle o index).Tabled listShardIds := by
  intro o' ho'
  obtain ⟨hi, hs⟩ := w.settle_names o index o'
  rw [hi, hs]
  exact h o' ho'

/-- Two objects have different names. -/
theorem unique (h : w.Tabled listShardIds) {o o' : Nat} (ho : w.objects.Alloc o)
    (ho' : w.objects.Alloc o') (hi : (w.objects.get o).indexId = (w.objects.get o').indexId)
    (hs : (w.objects.get o).shardId = (w.objects.get o').shardId) : o = o' := by
  have hlookup := (h o ho).2
  rw [hi, hs, (h o' ho').2] at hlookup
  exact (Option.some.inj hlookup).symm

end Tabled

/-- The tables after a look at etcd are still linked, and the objects are old or new ones. -/
theorem Linked.updateIndexesState {w : Writer B} (hw : w.Linked) (rt : Runtime B Text Vec Dist)
    (env : Env Time) {Q : Index B Text → Prop}
    (hcreate : ∀ config draws, Q (Index.create rt config true draws))
    (h : ∀ o, w.objects.Alloc o → Q (w.objects.get o).index) :
    (w.updateIndexesState rt env).Linked ∧
      ∀ o, (w.updateIndexesState rt env).objects.Alloc o →
        Q ((w.updateIndexesState rt env).objects.get o).index :=
  updateIndexesState_invariant (fun _ _ _ hu hstep =>
    forall_objects_step hstep (fun config => hcreate config _) hu) hw h

end Writer

namespace System

/-- What holds of a new index, and what the calls keep, holds of all objects of the writer. -/
theorem objects_invariant [LT Time] [DecidableLT Time] {rt : Runtime B Text Vec Dist}
    {platform : Platform B} {indexesConfig : AList fun _ : String => IndexConfig}
    {searchersConfigs : String → Option (List ShardConfig)} {env : Env Time}
    {events : List (Event Vec Time)} {st : System B} {Q : Index B Text → Prop}
    (hrun : (start rt indexesConfig searchersConfigs env).run rt platform events = .ok st)
    (hcreate : ∀ config draws, Q (Index.create rt config true draws))
    (hcall : ∀ env' request, .write env' request ∈ events → ∀ idx idx' : Index B Text, Q idx →
      Runs (Step rt) request.edit.op.changes idx.rest idx'.rest → Q idx') :
    st.writer.Linked ∧ st.writer.Counts ∧
      ∀ o, st.writer.objects.Alloc o → Q (st.writer.objects.get o).index := by
  refine invariant (P := fun u => u.writer.Counts ∧
    ∀ o, u.writer.objects.Alloc o → Q (u.writer.objects.get o).index) hrun ?_ ?_ ?_ ?_ ?_
  · exact ⟨fun o ho => absurd ho (Nat.not_lt_zero o), fun o ho => absurd ho (Nat.not_lt_zero o)⟩
  · exact fun env' _ u w' _ hu hstep =>
      ⟨hu.1.step hstep, Writer.forall_objects_step hstep (fun config => hcreate config _) hu.2⟩
  · exact fun u gauge hu => hu
  · intro env' request he u o index _ hu halloc hexec
    have hruns := Writer.exec_runs (hu.1 o halloc) hexec
    have hle : u.writer.draws ≤ index.draws := draws_le_of_runs (Index.exec_runs hexec)
    refine ⟨fun o' ho' => ?_, fun o' ho' => ?_⟩
    · show ((u.writer.settle o index).objects.get o').index.draws ≤ index.draws
      rw [Writer.settle_get]
      split
      · exact Nat.le_refl _
      · exact (hu.1 o' ho').trans hle
    · show Q ((u.writer.settle o index).objects.get o').index
      rw [Writer.settle_get]
      split
      · exact hcall env' request he _ _ (hu.2 o halloc) hruns
      · exact hu.2 o' ho'
  · exact fun env' _ u task tasks searchers _ hu _ _ => hu

end System

/-! ## A small system

The concrete runs of the following modules are those of a writer with one index of points on a
line. -/

/-- A platform for points on a line. -/
def linePlatform : Platform (List Nat) where
  toFiles := lineFiles
  hash := String.length

/-- One index, with the given shards and searchers. The shorter the name, the faster the shard. -/
def docsEnv (shardIds hosts : List String) : Env Nat where
  listShardIds i := if i = "docs" then shardIds else []
  getSearcherAverageResponseTime _ s := s.length
  listSearcherHosts _ _ := hosts
  shardOrder := IterOrder.insertion _

/-- Segments of one vector, with merging. -/
def docsConfig : AList fun _ : String => IndexConfig := AList.singleton "docs" (unitConfig true)

/-- One searcher, with one shard. -/
def docsSearchers (host : String) : Option (List ShardConfig) :=
  if host = "host" then some [⟨"docs", "east", unitConfig true⟩] else none

/-- The string of one byte. -/
def letter (b : UInt8) : Text where
  bytes := [b]
  short := show 1 ≤ maxSize by decide

def addRequest (b : UInt8) (v : Nat) : WriteRequest Nat where
  id := letter b
  vectorData := v
  attributes := AList.singleton "index-id" "docs"

def deleteRequest (b : UInt8) : WriteRequest Nat where
  id := letter b
  vectorData := 0
  attributes := (AList.singleton "index-id" "docs").insert "delete" ""

end Vecodex
