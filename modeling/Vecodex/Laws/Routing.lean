import Vecodex.Laws.Total
import Vecodex.Laws.Writer

/-!
# The shards of the writer

`updateIndexesState` brings the table of every configured index to what etcd lists: shards that
are no longer listed go, listed shards stay with their index objects, and new ones get an index of
their own (`Reconciled`). It works index by index, and one index's turn leaves the tables of the
others and all existing objects alone (`TurnOf`).

A request that adds a document then goes to a shard that no other shard of the index beats in
response time (`chooseShard_least`). The response times are compared with `<` only, so they are
from a preorder: an answer of etcd may be no number.
-/

namespace Vecodex

open Lib

variable {B Vec Dist Time : Type}

namespace Writer

/-! ## The turn of one index -/

/-- What the turn of an index leaves alone. -/
structure TurnOf (i : String) (w w' : Writer B) : Prop where
  others : ∀ j ≠ i, w'.shards.lookup j = w.shards.lookup j
  objects : ∀ o, w.objects.Alloc o → w'.objects.Alloc o ∧ w'.objects.get o = w.objects.get o

namespace TurnOf

variable {i : String} {w w' w'' : Writer B}

theorem refl (i : String) (w : Writer B) : TurnOf i w w := ⟨fun _ _ => rfl, fun _ ho => ⟨ho, rfl⟩⟩

theorem trans (h : TurnOf i w w') (h' : TurnOf i w' w'') : TurnOf i w w'' where
  others j hj := (h'.others j hj).trans (h.others j hj)
  objects o ho := by
    obtain ⟨ho', hget⟩ := h.objects o ho
    obtain ⟨ho'', hget'⟩ := h'.objects o ho'
    exact ⟨ho'', hget'.trans hget⟩

theorem insert (w : Writer B) (t : AList fun _ : String => Nat) :
    TurnOf i w { w with shards := w.shards.insert i t } :=
  ⟨fun _ hj => AList.lookup_insert_ne hj, fun _ ho => ⟨ho, rfl⟩⟩

theorem addShard (rt : Runtime B Text Vec Dist) (config : IndexConfig) (w : Writer B)
    (s : String) : TurnOf i w (addShard rt i config w s) :=
  ⟨fun _ hj => AList.lookup_insert_ne hj,
    fun _ ho => ⟨Nat.lt_succ_of_lt ho, Heap.alloc_get_of_alloc _ ho⟩⟩

theorem foldl {f : Writer B → String → Writer B} (hf : ∀ w s, TurnOf i w (f w s))
    (ss : List String) (w : Writer B) : TurnOf i w (ss.foldl f w) := by
  induction ss generalizing w with
  | nil => exact refl i w
  | cons s ss ih => exact (hf w s).trans (ih _)

theorem table_eq (h : TurnOf i w w') {j : String} (hj : j ≠ i) : w'.table j = w.table j := by
  unfold table
  rw [h.others j hj]

theorem mem_iff (h : TurnOf i w w') {j : String} (hj : j ≠ i) : j ∈ w'.shards ↔ j ∈ w.shards := by
  rw [← AList.lookup_isSome, ← AList.lookup_isSome, h.others j hj]

end TurnOf

theorem lookup_foldl_dropShard (i : String) (ss : List String) (w : Writer B) (s : String) :
    ((ss.foldl (dropShard i) w).table i).lookup s =
      if s ∈ ss then none else (w.table i).lookup s := by
  induction ss generalizing w with
  | nil => rfl
  | cons s' ss ih =>
    rw [List.foldl_cons, ih, table_dropShard, if_pos rfl]
    by_cases hs : s = s'
    · subst hs
      rw [AList.lookup_erase, if_pos List.mem_cons_self, ite_self]
    · rw [AList.lookup_erase_ne hs]
      simp only [List.mem_cons, hs, false_or]

theorem foldl_dropShard_objects (i : String) (ss : List String) (w : Writer B) :
    (ss.foldl (dropShard i) w).objects = w.objects := by
  induction ss generalizing w with
  | nil => rfl
  | cons s ss ih => exact ih _

/-- An index that has a table keeps it. -/
theorem mem_foldl {i : String} {f : Writer B → String → Writer B} (hf : ∀ w s, i ∈ (f w s).shards)
    (ss : List String) {w : Writer B} (h : i ∈ w.shards) : i ∈ (ss.foldl f w).shards := by
  induction ss generalizing w with
  | nil => exact h
  | cons s ss ih => exact ih (hf w s)

theorem lookup_foldl_addShard_of_notMem (rt : Runtime B Text Vec Dist) (i : String)
    (config : IndexConfig) {ss : List String} (w : Writer B) {s : String} (hs : s ∉ ss) :
    ((ss.foldl (addShard rt i config) w).table i).lookup s = (w.table i).lookup s := by
  induction ss generalizing w with
  | nil => rfl
  | cons s' ss ih =>
    rw [List.mem_cons, not_or] at hs
    obtain ⟨hne, hs⟩ := hs
    rw [List.foldl_cons, ih _ hs, table_addShard, if_pos rfl, AList.lookup_insert_ne hne]

/-- A new shard gets a new index, which carries its names. -/
theorem lookup_foldl_addShard_of_mem (rt : Runtime B Text Vec Dist) (i : String)
    (config : IndexConfig) {ss : List String} (hnodup : ss.Nodup) (w : Writer B) {s : String}
    (hs : s ∈ ss) :
    ∃ o draws, ((ss.foldl (addShard rt i config) w).table i).lookup s = some o ∧
      ¬ w.objects.Alloc o ∧ (ss.foldl (addShard rt i config) w).objects.Alloc o ∧
      (ss.foldl (addShard rt i config) w).objects.get o =
        ⟨Index.create rt config true draws, i, s⟩ := by
  induction ss generalizing w with
  | nil => cases hs
  | cons s' ss ih =>
    obtain ⟨hs', hnodup⟩ := List.nodup_cons.mp hnodup
    rw [List.foldl_cons]
    have hstep : TurnOf i w (addShard rt i config w s') := .addShard rt config w s'
    rcases List.mem_cons.mp hs with rfl | hs
    · have hrest : TurnOf i (addShard rt i config w s) (ss.foldl (addShard rt i config) _) :=
        .foldl (TurnOf.addShard rt config) ss _
      obtain ⟨halloc, hget⟩ := hrest.objects w.objects.next (Nat.lt_succ_self _)
      refine ⟨w.objects.next, w.draws, ?_, Nat.lt_irrefl _, halloc, ?_⟩
      · rw [lookup_foldl_addShard_of_notMem rt i config _ hs', table_addShard, if_pos rfl,
          AList.lookup_insert]
      · rw [hget]
        exact Heap.alloc_get_next _ _
    · obtain ⟨o, draws, hlookup, hnew, hrest⟩ := ih hnodup (addShard rt i config w s') hs
      exact ⟨o, draws, hlookup, fun ho => hnew (hstep.objects o ho).1, hrest⟩

/-! ## `updateIndexesState` -/

/-- The table of an index after `updateIndexesState`. -/
structure Reconciled (rt : Runtime B Text Vec Dist) (env : Env Time) (i : String)
    (config : IndexConfig) (w w' : Writer B) : Prop where
  key : i ∈ w'.shards ↔ env.listShardIds i ≠ []
  keys : ∀ s, s ∈ w'.table i ↔ s ∈ env.listShardIds i
  kept : ∀ s o, (w.table i).lookup s = some o → s ∈ env.listShardIds i →
    (w'.table i).lookup s = some o ∧ w'.objects.get o = w.objects.get o
  fresh : ∀ s, s ∉ w.table i → s ∈ env.listShardIds i →
    ∃ o draws, (w'.table i).lookup s = some o ∧ ¬ w.objects.Alloc o ∧ w'.objects.Alloc o ∧
      w'.objects.get o = ⟨Index.create rt config true draws, i, s⟩

/-- No entry of the tables is null. -/
def NoNulls (w : Writer B) : Prop :=
  ∀ i s o, (w.table i).lookup s = some o → w.objects.Alloc o

theorem updateIndexState_turn (rt : Runtime B Text Vec Dist) (env : Env Time) (w : Writer B)
    (entry : Σ _ : String, IndexConfig) : TurnOf entry.1 w (w.updateIndexState rt env entry) := by
  unfold updateIndexState
  dsimp only
  split
  · exact ⟨fun _ hj => AList.lookup_erase_ne hj, fun _ ho => ⟨ho, rfl⟩⟩
  · refine TurnOf.trans ?_ (.trans (.foldl (fun w s => .insert w _) _ _)
      (.foldl (TurnOf.addShard rt entry.2) _ _))
    split
    · exact .refl _ w
    · exact .insert w ∅

/-- The two loops of the turn of a listed index: the shards that are to go are dropped, then the
missing ones are added. -/
theorem reconciled_of_listed (rt : Runtime B Text Vec Dist) (env : Env Time) {w : Writer B}
    {i : String} (config : IndexConfig) {toDel toAdd : List String} (hnull : w.NoNulls)
    (hmem : i ∈ w.shards) (hlisted : env.listShardIds i ≠ [])
    (hdel : ∀ s, s ∈ toDel ↔ s ∈ w.table i ∧ s ∉ env.listShardIds i)
    (hadd : ∀ s, s ∈ toAdd ↔ s ∈ env.listShardIds i ∧ s ∉ w.table i) (hnodup : toAdd.Nodup) :
    Reconciled rt env i config w
      (toAdd.foldl (addShard rt i config) (toDel.foldl (dropShard i) w)) := by
  generalize hdropped : toDel.foldl (dropShard i) w = dropped
  have hobjects : dropped.objects = w.objects := hdropped ▸ foldl_dropShard_objects i toDel w
  have hlookup : ∀ s, (dropped.table i).lookup s =
      if s ∈ toDel then none else (w.table i).lookup s :=
    hdropped ▸ lookup_foldl_dropShard i toDel w
  have hkeep : ∀ s o, (w.table i).lookup s = some o → s ∈ env.listShardIds i →
      ((toAdd.foldl (addShard rt i config) dropped).table i).lookup s = some o := by
    intro s o ho hs
    have hold : s ∈ w.table i := AList.lookup_isSome.mp (ho ▸ rfl)
    rw [lookup_foldl_addShard_of_notMem rt i config _ fun h => ((hadd s).mp h).2 hold, hlookup,
      if_neg fun h => ((hdel s).mp h).2 hs, ho]
  have hnew : ∀ s, s ∉ w.table i → s ∈ env.listShardIds i → _ := fun s hold hs =>
    lookup_foldl_addShard_of_mem rt i config hnodup dropped ((hadd s).mpr ⟨hs, hold⟩)
  have hturn : TurnOf i dropped (toAdd.foldl (addShard rt i config) dropped) :=
    .foldl (TurnOf.addShard rt config) _ _
  constructor
  · refine iff_of_true (mem_foldl (fun w s => ?_) _ ?_) hlisted
    · exact (AList.mem_insert _).mpr (Or.inl rfl)
    · exact hdropped ▸ mem_foldl (fun w s => (AList.mem_insert _).mpr (Or.inl rfl)) _ hmem
  · intro s
    constructor
    · intro hs
      by_contra hout
      rw [← AList.lookup_isSome, lookup_foldl_addShard_of_notMem rt i config _ fun h =>
        hout ((hadd s).mp h).1, hlookup] at hs
      split at hs
      · cases hs
      · next hkept => exact hkept ((hdel s).mpr ⟨AList.lookup_isSome.mp hs, hout⟩)
    · intro hs
      rw [← AList.lookup_isSome]
      by_cases hold : s ∈ w.table i
      · obtain ⟨o, ho⟩ := Option.isSome_iff_exists.mp (AList.lookup_isSome.mpr hold)
        rw [hkeep s o ho hs]
        rfl
      · obtain ⟨o, draws, ho, -⟩ := hnew s hold hs
        rw [ho]
        rfl
  · intro s o ho hs
    refine ⟨hkeep s o ho hs, ?_⟩
    rw [(hturn.objects o (hobjects ▸ hnull i s o ho)).2, hobjects]
  · intro s hold hs
    rw [← hobjects]
    exact hnew s hold hs

theorem updateIndexState_reconciled (rt : Runtime B Text Vec Dist) (env : Env Time) {w : Writer B}
    (hnull : w.NoNulls) (i : String) (config : IndexConfig) :
    Reconciled rt env i config w (w.updateIndexState rt env ⟨i, config⟩) := by
  unfold updateIndexState
  dsimp only
  split
  · next hnone =>
    have hgone : ∀ s, s ∉ env.listShardIds i := fun s hs => by
      rw [hnone] at hs
      cases hs
    constructor
    · rw [AList.mem_erase]
      exact iff_of_false (fun h => h.1 rfl) fun h => h hnone
    · intro s
      refine iff_of_false (fun h => ?_) (hgone s)
      rw [← AList.lookup_isSome] at h
      unfold table at h
      rw [AList.lookup_erase] at h
      cases h
    · exact fun s _ _ hs => absurd hs (hgone s)
    · exact fun s _ hs => absurd hs (hgone s)
  · next hlisted =>
    have hopen : ∃ opened : Writer B, (if i ∈ w.shards then w else
        { w with shards := w.shards.insert i ∅ }) = opened ∧ opened.NoNulls ∧
        opened.objects = w.objects ∧ opened.table i = w.table i ∧ i ∈ opened.shards := by
      refine ⟨_, rfl, ?_⟩
      split
      · next hmem => exact ⟨hnull, rfl, rfl, hmem⟩
      · next absent =>
        exact ⟨fun j s o => table_open absent j ▸ hnull j s o, rfl, table_open absent i,
          (AList.mem_insert _).mpr (Or.inl rfl)⟩
    obtain ⟨opened, heq, hnull', hobjects, htable, hmem⟩ := hopen
    rw [heq]
    have hdel : ∀ s, s ∈ (env.shardOrder.arrange (opened.table i).keys).filter (fun s =>
        s ∉ env.listShardIds i) ↔ s ∈ opened.table i ∧ s ∉ env.listShardIds i := by
      intro s
      rw [List.mem_filter, env.shardOrder.mem_arrange, AList.mem_keys, decide_eq_true_eq]
    have hadd : ∀ s, s ∈ (setOf (env.listShardIds i)).filter (fun s => s ∉ opened.table i) ↔
        s ∈ env.listShardIds i ∧ s ∉ opened.table i := by
      intro s
      rw [List.mem_filter, mem_setOf, decide_eq_true_eq]
    have h := reconciled_of_listed rt env config hnull' hmem hlisted hdel hadd
      ((nodup_setOf _).filter _)
    exact ⟨h.key, h.keys, fun s o ho => hobjects ▸ h.kept s o (htable ▸ ho),
      fun s hs => hobjects ▸ h.fresh s (htable ▸ hs)⟩

/-- The turns of other indexes before and after. -/
theorem Reconciled.frame {rt : Runtime B Text Vec Dist} {env : Env Time} {i : String}
    {config : IndexConfig} {w u u' w' : Writer B} (h : Reconciled rt env i config u u')
    (hnull : w.NoNulls)
    (hbefore : u.shards.lookup i = w.shards.lookup i ∧
      ∀ o, w.objects.Alloc o → u.objects.Alloc o ∧ u.objects.get o = w.objects.get o)
    (hafter : w'.shards.lookup i = u'.shards.lookup i ∧
      ∀ o, u'.objects.Alloc o → w'.objects.Alloc o ∧ w'.objects.get o = u'.objects.get o)
    (hgrow : ∀ o, u.objects.Alloc o → u'.objects.Alloc o) : Reconciled rt env i config w w' := by
  have htable : u.table i = w.table i := by rw [table, table, hbefore.1]
  have htable' : w'.table i = u'.table i := by rw [table, table, hafter.1]
  constructor
  · rw [← AList.lookup_isSome, hafter.1, AList.lookup_isSome]
    exact h.key
  · rw [htable']
    exact h.keys
  · intro s o ho hs
    obtain ⟨halloc, hget⟩ := hbefore.2 o (hnull i s o ho)
    obtain ⟨hlookup, hget'⟩ := h.kept s o (htable ▸ ho) hs
    rw [htable', (hafter.2 o (hgrow o halloc)).2]
    exact ⟨hlookup, hget'.trans hget⟩
  · intro s hold hs
    obtain ⟨o, draws, hlookup, hnew, halloc, hget⟩ := h.fresh s (htable ▸ hold) hs
    obtain ⟨halloc', hget'⟩ := hafter.2 o halloc
    rw [htable']
    exact ⟨o, draws, hlookup, fun ho => hnew (hbefore.2 o ho).1, halloc', hget'.trans hget⟩

/-- Turns of other indexes. -/
theorem foldl_updateIndexState_other (rt : Runtime B Text Vec Dist) (env : Env Time) {i : String}
    {entries : List (Σ _ : String, IndexConfig)} (hi : ∀ e ∈ entries, i ≠ e.1) (w : Writer B) :
    (entries.foldl (updateIndexState rt env) w).shards.lookup i = w.shards.lookup i ∧
      ∀ o, w.objects.Alloc o → (entries.foldl (updateIndexState rt env) w).objects.Alloc o ∧
        (entries.foldl (updateIndexState rt env) w).objects.get o = w.objects.get o := by
  induction entries generalizing w with
  | nil => exact ⟨rfl, fun o ho => ⟨ho, rfl⟩⟩
  | cons e entries ih =>
    have hturn := updateIndexState_turn rt env w e
    obtain ⟨hlookup, hobjects⟩ := ih (fun e he => hi e (List.mem_cons_of_mem _ he))
      (w.updateIndexState rt env e)
    refine ⟨hlookup.trans (hturn.others i (hi e List.mem_cons_self)), fun o ho => ?_⟩
    obtain ⟨ho', hget⟩ := hturn.objects o ho
    obtain ⟨ho'', hget'⟩ := hobjects o ho'
    exact ⟨ho'', hget'.trans hget⟩

theorem NoNulls.steps {rt : Runtime B Text Vec Dist} {env : Env Time} {w : Writer B}
    (h : w.NoNulls) (entries : List (Σ _ : String, IndexConfig)) :
    (entries.foldl (updateIndexState rt env) w).NoNulls := by
  induction entries generalizing w with
  | nil => exact h
  | cons e entries ih =>
    refine ih fun j s o ho => ?_
    have hturn := updateIndexState_turn rt env w e
    by_cases hj : j = e.1
    · subst hj
      have hrec := updateIndexState_reconciled rt env h e.1 e.2
      have hs := (hrec.keys s).mp (AList.lookup_isSome.mp (ho ▸ rfl))
      by_cases hold : s ∈ w.table e.1
      · obtain ⟨o', ho'⟩ := Option.isSome_iff_exists.mp (AList.lookup_isSome.mpr hold)
        obtain rfl : o' = o := Option.some.inj ((hrec.kept s o' ho' hs).1.symm.trans ho)
        exact (hturn.objects o' (h e.1 s o' ho')).1
      · obtain ⟨o', draws, ho', -, halloc, -⟩ := hrec.fresh s hold hs
        obtain rfl : o' = o := Option.some.inj (ho'.symm.trans ho)
        exact halloc
    · rw [hturn.table_eq hj] at ho
      exact (hturn.objects o (h j s o ho)).1

/-- The table of every configured index follows etcd. -/
theorem updateIndexesState_reconciled (rt : Runtime B Text Vec Dist) (env : Env Time)
    {w : Writer B} (hnull : w.NoNulls) {i : String} {config : IndexConfig}
    (hconfig : w.indexesCreateAgrs.lookup i = some config) :
    Reconciled rt env i config w (w.updateIndexesState rt env) := by
  have hmem : ⟨i, config⟩ ∈ w.indexesCreateAgrs.entries := AList.mem_lookup_iff.mp hconfig
  have hnodup := w.indexesCreateAgrs.nodupKeys
  unfold updateIndexesState
  generalize w.indexesCreateAgrs.entries = entries at hmem hnodup
  obtain ⟨before, after, rfl⟩ := List.append_of_mem hmem
  rw [List.foldl_append, List.foldl_cons]
  have hother : ∀ e ∈ before ++ after, i ≠ e.1 := by
    intro e he heq
    have hnot := List.notMem_keys_of_nodupKeys_cons (List.nodupKeys_middle.mp hnodup)
    exact hnot (List.mem_map.mpr ⟨e, he, heq.symm⟩)
  have hturn := updateIndexState_turn rt env (before.foldl (updateIndexState rt env) w) ⟨i, config⟩
  exact (updateIndexState_reconciled rt env (hnull.steps before) i config).frame hnull
    (foldl_updateIndexState_other rt env (fun e he => hother e (List.mem_append_left _ he)) w)
    (foldl_updateIndexState_other rt env (fun e he => hother e (List.mem_append_right _ he)) _)
    fun o ho => (hturn.objects o ho).1

/-- An index that is not configured keeps its place. -/
theorem updateIndexesState_unconfigured (rt : Runtime B Text Vec Dist) (env : Env Time)
    (w : Writer B) {i : String} (hi : i ∉ w.indexesCreateAgrs) :
    i ∈ (w.updateIndexesState rt env).shards ↔ i ∈ w.shards := by
  have hother : ∀ e ∈ w.indexesCreateAgrs.entries, i ≠ e.1 := fun e he heq =>
    hi (AList.mem_keys.mpr (List.mem_map.mpr ⟨e, he, heq.symm⟩))
  rw [← AList.lookup_isSome, ← AList.lookup_isSome, updateIndexesState,
    (foldl_updateIndexState_other rt env hother w).1]

/-- The existing objects stay as they are. -/
theorem updateIndexesState_keeps (rt : Runtime B Text Vec Dist) (env : Env Time) (w : Writer B)
    {o : Nat} (ho : w.objects.Alloc o) : (w.updateIndexesState rt env).objects.Alloc o ∧
      (w.updateIndexesState rt env).objects.get o = w.objects.get o := by
  have hsteps := w.updateIndexesState_steps rt env
  generalize w.updateIndexesState rt env = w' at hsteps
  induction hsteps with
  | refl => exact ⟨ho, rfl⟩
  | tail _ hstep ih =>
    obtain ⟨ho', hget⟩ := hstep.keeps ih.1
    exact ⟨ho', hget.trans ih.2⟩

/-! ## `chooseShard` -/

section Choose

variable [Preorder Time] [DecidableLT Time]

/-- A shard of the list that no other one beats, with its time. -/
def LeastOf (time : String → Time) (ss : List String) : Option (String × Time) → Prop
  | none => ss = []
  | some b => b.1 ∈ ss ∧ b.2 = time b.1 ∧ ∀ s ∈ ss, ¬ time s < b.2

/-- The loop keeps the best of the shards it has seen. -/
theorem foldl_least (time : String → Time) (ss : List String) {seen : List String}
    {best : Option (String × Time)} (h : LeastOf time seen best) :
    LeastOf time (seen ++ ss) (ss.foldl (fun best s => match best with
      | none => some (s, time s)
      | some (_, m) => if time s < m then some (s, time s) else best) best) := by
  induction ss generalizing seen best with
  | nil =>
    rw [List.append_nil]
    exact h
  | cons s ss ih =>
    rw [List.foldl_cons, List.append_cons]
    apply ih
    cases best with
    | none =>
      obtain rfl : seen = [] := h
      refine ⟨List.mem_cons_self, rfl, fun s' hs' => ?_⟩
      rw [List.nil_append, List.mem_singleton] at hs'
      rw [hs']
      exact lt_irrefl _
    | some b =>
      obtain ⟨hmem, htime, hleast⟩ := h
      dsimp only
      split
      · next hlt =>
        refine ⟨List.mem_append_right _ List.mem_cons_self, rfl, fun s' hs' hbeats => ?_⟩
        rcases List.mem_append.mp hs' with hs' | hs'
        · exact hleast s' hs' (hbeats.trans hlt)
        · rw [List.mem_singleton.mp hs'] at hbeats
          exact lt_irrefl _ hbeats
      · next hlt =>
        refine ⟨List.mem_append_left _ hmem, htime, fun s' hs' hbeats => ?_⟩
        rcases List.mem_append.mp hs' with hs' | hs'
        · exact hleast s' hs' hbeats
        · rw [List.mem_singleton.mp hs'] at hbeats
          exact hlt hbeats

/-- The chosen shard is one of the index, and no other has a smaller response time. -/
theorem chooseShard_least (w : Writer B) (env : Env Time) {i s : String} (hs : s ∈ w.table i) :
    w.chooseShard env i ∈ w.table i ∧ ∀ s' ∈ w.table i,
      ¬ env.getSearcherAverageResponseTime i s' <
        env.getSearcherAverageResponseTime i (w.chooseShard env i) := by
  have hkeys : ∀ s, s ∈ env.shardOrder.arrange (w.table i).keys ↔ s ∈ w.table i := fun s =>
    (env.shardOrder.mem_arrange).trans AList.mem_keys
  have hstart : LeastOf (env.getSearcherAverageResponseTime i) [] none := rfl
  have h := foldl_least _ (env.shardOrder.arrange (w.table i).keys) hstart
  rw [List.nil_append] at h
  unfold chooseShard
  dsimp only
  generalize (env.shardOrder.arrange (w.table i).keys).foldl _ none = best at h ⊢
  cases best with
  | none =>
    rw [← hkeys, show env.shardOrder.arrange (w.table i).keys = [] from h] at hs
    cases hs
  | some b =>
    obtain ⟨hmem, htime, hleast⟩ := h
    refine ⟨(hkeys b.1).mp hmem, fun s' hs' => ?_⟩
    show ¬ _ < env.getSearcherAverageResponseTime i b.1
    rw [← htime]
    exact hleast s' ((hkeys s').mpr hs')

end Choose

/-! ## Requests that add -/

/-- Every index object is in good shape, with at most `n` positions in its open segment. -/
def Fillable (w : Writer B) (n : Nat) : Prop :=
  ∀ o, w.objects.Alloc o → Shape (w.objects.get o).index.rest ∧ (w.objects.get o).index.Roomy n

theorem Fillable.updateIndexesState {w : Writer B} {n : Nat} (h : w.Fillable n)
    (rt : Runtime B Text Vec Dist) (env : Env Time) : (w.updateIndexesState rt env).Fillable n := by
  have hsteps := w.updateIndexesState_steps rt env
  generalize w.updateIndexesState rt env = w' at hsteps
  induction hsteps with
  | refl => exact h
  | tail _ hstep ih =>
    exact forall_objects_step (Q := fun idx => Shape idx.rest ∧ idx.Roomy n) hstep
      (fun config => ⟨Shape.create rt config true _, Index.Roomy.create rt config true _ n⟩) ih

/-- The call a request makes on an index object: `add` of one document. -/
def addTo (rt : Runtime B Text Vec Dist) (w : Writer B) (o : Nat) (request : WriteRequest Vec) :
    Except Fault (Index B Text) :=
  ({ (w.objects.get o).index with draws := w.draws } : Index B Text).add rt
    [(request.id, request.vectorData)]

/-- The call returns as long as the index has fewer than 2^62 vectors. -/
theorem Fillable.addTo {w : Writer B} {n : Nat} (h : w.Fillable n) (hn : n + 1 < 2 ^ 62)
    (rt : Runtime B Text Vec Dist) {o : Nat} (ho : w.objects.Alloc o)
    (request : WriteRequest Vec) : ∃ index, w.addTo rt o request = .ok index := by
  obtain ⟨hshape, hroomy⟩ := h o ho
  have hdrawn : Index.Roomy ({ (w.objects.get o).index with draws := w.draws } : Index B Text) n :=
    ⟨hroomy.kind, hroomy.room, hroomy.rows⟩
  obtain ⟨index, hindex, -⟩ := Index.add_total rt (hshape.drawn w.draws) hdrawn
    (show n + [(request.id, request.vectorData)].length < 2 ^ 62 from hn)
  exact ⟨index, hindex⟩

section Requests

variable [Preorder Time] [DecidableLT Time]

/-- The request names no index the writer has, is refused, and changes no index object. -/
structure Refused (rt : Runtime B Text Vec Dist) (env : Env Time) (w : Writer B)
    (request : WriteRequest Vec) : Prop where
  unnamed : request.attributes.lookup "index-id" = none ∨
    ∃ i, request.attributes.lookup "index-id" = some i ∧ i ∉ (w.updateIndexesState rt env).shards
  answer : ∃ w' message,
    w.processWriteRequest rt env request = .ok (w', .invalidArgument message) ∧
      ∀ o, w.objects.Alloc o → w'.objects.get o = w.objects.get o

/-- The request goes to the index object `o` of the shard `s`, as `updateIndexesState` leaves the
tables, and to no other object. -/
structure AddedTo (rt : Runtime B Text Vec Dist) (env : Env Time) (w : Writer B)
    (request : WriteRequest Vec) (i s : String) (o : Nat) : Prop where
  named : request.attributes.lookup "index-id" = some i
  entry : ((w.updateIndexesState rt env).table i).lookup s = some o
  least : ∀ s' ∈ (w.updateIndexesState rt env).table i,
    ¬ env.getSearcherAverageResponseTime i s' < env.getSearcherAverageResponseTime i s
  added : ∀ index, (w.updateIndexesState rt env).addTo rt o request = .ok index →
    ∃ w', w.processWriteRequest rt env request = .ok (w', .ok) ∧
      w'.shards = (w.updateIndexesState rt env).shards ∧ (w'.objects.get o).index = index ∧
      ∀ o' ≠ o, w'.objects.get o' = (w.updateIndexesState rt env).objects.get o'
  failed : ∀ e, (w.updateIndexesState rt env).addTo rt o request = .error e →
    w.processWriteRequest rt env request = .error e
  returns : ∀ n, w.Fillable n → n + 1 < 2 ^ 62 →
    ∃ index, (w.updateIndexesState rt env).addTo rt o request = .ok index

/-- A request to add, once its index has a table: one call on the chosen shard's object. -/
theorem processWriteRequest_add (rt : Runtime B Text Vec Dist) (env : Env Time) {w u : Writer B}
    (hu : w.updateIndexesState rt env = u) {request : WriteRequest Vec}
    (hadd : "delete" ∉ request.attributes) {i : String}
    (hi : request.attributes.lookup "index-id" = some i) (hmem : i ∈ u.shards) {o : Nat}
    (ho : (u.table i).lookup (u.chooseShard env i) = some o) :
    ∃ gauge : Int, w.processWriteRequest rt env request = (u.addTo rt o request >>= fun index =>
      .ok ((u.settle o index).setGauge (i, u.chooseShard env i) gauge, .ok)) := by
  refine ⟨(u.gaugeValue (i, u.chooseShard env i) : Nat) + 1, ?_⟩
  unfold processWriteRequest
  dsimp only
  rw [hu, hi]
  dsimp only
  rw [if_neg (not_not.mpr hmem), if_pos hadd]
  unfold call
  rw [ho]
  show (u.addTo rt o request >>= _) >>= _ = _
  cases u.addTo rt o request with
  | error e => rfl
  | ok index => rfl

/-- Every request to add is refused, or is one call on a shard of the index it names. -/
theorem refused_or_added (rt : Runtime B Text Vec Dist) (env : Env Time) {w : Writer B}
    (hconfigured : ∀ i ∈ w.shards, i ∈ w.indexesCreateAgrs) (hnull : w.NoNulls)
    {request : WriteRequest Vec} (hadd : "delete" ∉ request.attributes) :
    Refused rt env w request ∨ ∃ i s o, AddedTo rt env w request i s o := by
  have hkeeps : ∀ o, w.objects.Alloc o → (w.updateIndexesState rt env).objects.get o =
      w.objects.get o := fun o ho => (w.updateIndexesState_keeps rt env ho).2
  cases hi : request.attributes.lookup "index-id" with
  | none =>
    refine Or.inl ⟨Or.inl hi, _, "Missing index id", ?_, hkeeps⟩
    unfold processWriteRequest
    dsimp only
    rw [hi]
  | some i =>
    by_cases hmem : i ∈ (w.updateIndexesState rt env).shards
    · have hconfig : i ∈ w.indexesCreateAgrs := by
        by_contra hout
        exact hout (hconfigured i ((updateIndexesState_unconfigured rt env w hout).mp hmem))
      obtain ⟨config, hconfig⟩ := Option.isSome_iff_exists.mp (AList.lookup_isSome.mpr hconfig)
      have hrec := updateIndexesState_reconciled rt env hnull hconfig
      obtain ⟨s, hs⟩ := List.exists_mem_of_ne_nil _ (hrec.key.mp hmem)
      obtain ⟨hchosen, hleast⟩ := chooseShard_least _ env ((hrec.keys s).mpr hs)
      obtain ⟨o, ho⟩ := Option.isSome_iff_exists.mp (AList.lookup_isSome.mpr hchosen)
      have halloc : (w.updateIndexesState rt env).objects.Alloc o := hnull.steps _ i _ o ho
      obtain ⟨gauge, hreq⟩ := processWriteRequest_add rt env rfl hadd hi hmem ho
      refine Or.inr ⟨i, _, o, hi, ho, hleast, fun index hindex => ?_, fun e he => ?_,
        fun n hn hlt => (hn.updateIndexesState rt env).addTo hlt rt halloc request⟩
      · rw [hindex] at hreq
        refine ⟨_, hreq, rfl, ?_, fun o' ho' => ?_⟩
        · show (((w.updateIndexesState rt env).settle o index).objects.get o).index = index
          rw [settle_get, if_pos rfl]
        · show ((w.updateIndexesState rt env).settle o index).objects.get o' = _
          rw [settle_get, if_neg ho']
      · rw [hreq, he]
        rfl
    · refine Or.inl ⟨Or.inr ⟨i, hi, hmem⟩, _, "Wrong index id", ?_, hkeeps⟩
      unfold processWriteRequest
      dsimp only
      rw [hi]
      dsimp only
      rw [if_pos hmem]

end Requests

end Writer

/-- After `updateIndexesState` the table of every configured index is what etcd lists, with the
old objects where there were some and new ones under the right names elsewhere; and a request to
add is refused without an effect, or goes to one shard with the least response time. -/
theorem shard_tables_and_routing [Preorder Time] [DecidableLT Time]
    (rt : Runtime B Text Vec Dist) (env : Env Time) (w : Writer B)
    (hconfigured : ∀ i ∈ w.shards, i ∈ w.indexesCreateAgrs) (hnull : w.NoNulls) :
    (∀ i config, w.indexesCreateAgrs.lookup i = some config →
      Writer.Reconciled rt env i config w (w.updateIndexesState rt env)) ∧
    ∀ request : WriteRequest Vec, "delete" ∉ request.attributes →
      Writer.Refused rt env w request ∨ ∃ i s o, Writer.AddedTo rt env w request i s o :=
  ⟨fun _ _ hconfig => Writer.updateIndexesState_reconciled rt env hnull hconfig,
    fun _ hadd => Writer.refused_or_added rt env hconfigured hnull hadd⟩

/-- A writer that has seen one shard. -/
def eastWriter : Writer (List Nat) :=
  (Writer.create (lineRuntime Text id) docsConfig).updateIndexesState (lineRuntime Text id)
    (docsEnv ["east"] [])

/-- When it hears of a second shard, the tables follow, and the next document has a place. -/
theorem shard_tables_and_routing_east :
    Writer.Reconciled (lineRuntime Text id) (docsEnv ["east", "west"] []) "docs" (unitConfig true)
        eastWriter (eastWriter.updateIndexesState (lineRuntime Text id)
          (docsEnv ["east", "west"] [])) ∧
      ∃ i s o, Writer.AddedTo (lineRuntime Text id) (docsEnv ["east", "west"] []) eastWriter
        (addRequest 97 10) i s o := by
  have hconfigured : ∀ i ∈ eastWriter.shards, i ∈ eastWriter.indexesCreateAgrs := by
    intro i hi
    by_contra hout
    exact AList.notMem_empty i ((Writer.updateIndexesState_unconfigured (lineRuntime Text id)
      (docsEnv ["east"] []) (Writer.create (lineRuntime Text id) docsConfig) hout).mp hi)
  have hnull : eastWriter.NoNulls :=
    Writer.NoNulls.steps (fun i s o ho => by cases ho) _
  obtain ⟨htables, hroutes⟩ := shard_tables_and_routing (lineRuntime Text id)
    (docsEnv ["east", "west"] []) eastWriter hconfigured hnull
  have hdocs := htables "docs" (unitConfig true) rfl
  refine ⟨hdocs, (hroutes (addRequest 97 10) (by decide +kernel)).resolve_left fun hrefused => ?_⟩
  rcases hrefused.unnamed with hnone | ⟨i, hi, hmissing⟩
  · exact absurd hnone (by decide +kernel)
  · obtain rfl : "docs" = i := Option.some.inj (Eq.trans (by decide +kernel) hi)
    exact hmissing (hdocs.key.mpr (by decide))

end Vecodex
