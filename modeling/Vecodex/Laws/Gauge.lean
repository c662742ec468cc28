import Vecodex.Laws.LiveIds
import Vecodex.Laws.Routing

/-!
# The gauge `vectors_count`

A write request adds 1 to the gauge of the shard it chose, or takes 1 from it, whatever the call on
an index did and whichever index it was made on. `GaugeKept` says for which requests the gauge is
still the number of live ids afterwards. A gauge is a double, so it counts up to 2^53.

etcd lists the same shards all the time here, so that the look at etcd at the beginning of a request
changes nothing (`Settled`).
-/

namespace Vecodex

open Lib

variable {B Vec Dist Time : Type}

/-! ## Words and doubles -/

theorem sizeT_of_le {n : Nat} (h : n ≤ 2 ^ 53 + 1) : sizeT n = n := by
  unfold sizeT
  omega

/-- A gauge that is increased has counted exactly when it is not stuck. -/
theorem toDouble_succ {n : Nat} (h : n ≤ 2 ^ 53) :
    toDouble (sizeT ((n : Int) + 1)) = if n < 2 ^ 53 then n + 1 else n := by
  have hword : sizeT ((n : Int) + 1) = n + 1 := sizeT_of_le (n := n + 1) (by omega)
  rw [hword]
  split
  · exact toDouble_of_le (by omega)
  · obtain rfl : n = 2 ^ 53 := by omega
    exact toDouble_stuck

/-- A gauge that is decreased wraps at 0. -/
theorem toDouble_pred {n : Nat} (h : n ≤ 2 ^ 53) :
    toDouble (sizeT ((n : Int) - 1)) = if n = 0 then 2 ^ 64 else n - 1 := by
  split
  · next hzero =>
    subst hzero
    exact toDouble_word
  · have hword : sizeT ((n : Int) - 1) = n - 1 := by
      unfold sizeT
      omega
    rw [hword]
    exact toDouble_of_le (by omega)

namespace Writer

/-! ## A fixed set of shards -/

/-- The tables of the configured indexes are what etcd lists. -/
def Settled (listed : String → List String) (w : Writer B) : Prop :=
  ∀ i ∈ w.indexesCreateAgrs,
    (i ∈ w.shards ↔ listed i ≠ []) ∧ ∀ s, s ∈ w.table i ↔ s ∈ listed i

theorem Settled.updateIndexState {rt : Runtime B Text Vec Dist} {env : Env Time} {w : Writer B}
    (h : w.Settled env.listShardIds) {entry : Σ _ : String, IndexConfig}
    (hentry : entry.1 ∈ w.indexesCreateAgrs) : w.updateIndexState rt env entry = w := by
  obtain ⟨hkey, hkeys⟩ := h entry.1 hentry
  unfold Writer.updateIndexState
  dsimp only
  split
  · next hnone =>
    have habsent : entry.1 ∉ w.shards := fun hmem => hkey.mp hmem hnone
    have herase : w.shards.erase entry.1 = w.shards :=
      AList.ext (List.kerase_of_notMem_keys habsent)
    rw [herase]
  · next hlisted =>
    have hdel : (env.shardOrder.arrange (w.table entry.1).keys).filter
        (fun s => s ∉ env.listShardIds entry.1) = [] := by
      rw [List.filter_eq_nil_iff]
      intro s hs
      have hmem := (hkeys s).mp (AList.mem_keys.mpr (env.shardOrder.mem_arrange.mp hs))
      simpa using hmem
    have hadd : (setOf (env.listShardIds entry.1)).filter
        (fun s => s ∉ w.table entry.1) = [] := by
      rw [List.filter_eq_nil_iff]
      intro s hs
      have hmem := (hkeys s).mpr (mem_setOf.mp hs)
      simpa using hmem
    rw [if_pos (hkey.mpr hlisted), hdel, hadd]
    rfl

/-- The look at etcd changes nothing. -/
theorem Settled.updateIndexesState {rt : Runtime B Text Vec Dist} {env : Env Time} {w : Writer B}
    (h : w.Settled env.listShardIds) : w.updateIndexesState rt env = w := by
  have hall : ∀ entries : List (Σ _ : String, IndexConfig),
      (∀ e ∈ entries, e.1 ∈ w.indexesCreateAgrs) →
      entries.foldl (Writer.updateIndexState rt env) w = w := by
    intro entries
    induction entries with
    | nil => exact fun _ => rfl
    | cons e entries ih =>
      intro hentries
      rw [List.foldl_cons, h.updateIndexState (hentries e List.mem_cons_self)]
      exact ih fun e he => hentries e (List.mem_cons_of_mem _ he)
  exact hall _ fun e he => AList.mem_keys.mpr (List.mem_map_of_mem he)

/-- The look at etcd changes neither the configuration nor the gauges. -/
theorem updateIndexesState_rest (rt : Runtime B Text Vec Dist) (env : Env Time) (w : Writer B) :
    (w.updateIndexesState rt env).indexesCreateAgrs = w.indexesCreateAgrs ∧
      (w.updateIndexesState rt env).vectorsCount = w.vectorsCount := by
  have hsteps := w.updateIndexesState_steps rt env
  generalize w.updateIndexesState rt env = w' at hsteps
  induction hsteps with
  | refl => exact ⟨rfl, rfl⟩
  | tail _ hstep ih =>
    rw [← ih.1, ← ih.2]
    cases hstep <;> exact ⟨rfl, rfl⟩

theorem settled_updateIndexesState (rt : Runtime B Text Vec Dist) (env : Env Time) {w : Writer B}
    (hnull : w.NoNulls) : (w.updateIndexesState rt env).Settled env.listShardIds := by
  intro i hi
  rw [(updateIndexesState_rest rt env w).1] at hi
  obtain ⟨config, hconfig⟩ := Option.isSome_iff_exists.mp (AList.lookup_isSome.mpr hi)
  have hrec := updateIndexesState_reconciled rt env hnull hconfig
  exact ⟨hrec.key, hrec.keys⟩

/-! ## Requests that are answered OK -/

section Requests

variable [Preorder Time] [DecidableLT Time]

/-- What a request that is answered OK did, when the look at etcd changed nothing. -/
theorem processWriteRequest_answered {rt : Runtime B Text Vec Dist} {env : Env Time}
    {w w' : Writer B} (hsame : w.updateIndexesState rt env = w) {request : WriteRequest Vec}
    (h : w.processWriteRequest rt env request = .ok (w', .ok)) :
    ∃ i o index, request.attributes.lookup "index-id" = some i ∧
      (("delete" ∉ request.attributes ∧ (w.table i).lookup (w.chooseShard env i) = some o ∧
          ({ (w.objects.get o).index with draws := w.draws } : Index B Text).add rt
            [(request.id, request.vectorData)] = .ok index ∧
          w' = (w.settle o index).setGauge (i, w.chooseShard env i)
            ((w.gaugeValue (i, w.chooseShard env i) : Nat) + 1)) ∨
        ("delete" ∈ request.attributes ∧ (w.table i).lookup i = some o ∧
          index = ({ (w.objects.get o).index with draws := w.draws } : Index B Text).erase
            [request.id] ∧
          w' = (w.settle o index).setGauge (i, w.chooseShard env i)
            ((w.gaugeValue (i, w.chooseShard env i) : Nat) - 1))) := by
  unfold processWriteRequest at h
  dsimp only at h
  rw [hsame] at h
  split at h
  · cases h
  · next i hi =>
    split at h
    · cases h
    · split at h
      · next hadd =>
        obtain ⟨called, hcall, hw'⟩ := bind_eq_ok.mp h
        obtain ⟨o, index, ho, hexec, rfl⟩ := call_eq_ok hcall
        cases hw'
        exact ⟨i, o, index, hi, Or.inl ⟨hadd, ho, hexec, rfl⟩⟩
      · next hdelete =>
        obtain ⟨called, hcall, hw'⟩ := bind_eq_ok.mp h
        obtain ⟨o, index, ho, hexec, rfl⟩ := call_eq_ok hcall
        cases hw'
        exact ⟨i, o, index, hi, Or.inr ⟨not_not.mp hdelete, ho, (Except.ok.inj hexec).symm, rfl⟩⟩

end Requests

/-! ## The gauge and the live ids -/

/-- Every gauge that has been set is the number of live ids of its shard. -/
def Truthful (w : Writer B) : Prop :=
  ∀ i s o n, (w.table i).lookup s = some o → w.vectorsCount.lookup (i, s) = some n →
    n = (w.objects.get o).index.liveIds.card

/-- The request leaves the gauge right. An `add` brings a new id, unless the gauge is stuck; a
`delete` is one for the shard that was chosen, and reaches all copies of an id that is live. -/
def GaugeKept [LT Time] [DecidableLT Time] (w : Writer B) (env : Env Time)
    (request : WriteRequest Vec) : Prop :=
  ∀ i o, request.attributes.lookup "index-id" = some i →
    (w.table i).lookup (w.chooseShard env i) = some o →
    if "delete" ∈ request.attributes then
      w.chooseShard env i = i ∧ request.id ∈ (w.objects.get o).index.liveIds ∧
        (w.objects.get o).index.Reaches request.id
    else request.id ∉ (w.objects.get o).index.liveIds ↔
      (w.objects.get o).index.liveIds.card < 2 ^ 53

instance [LT Time] [DecidableLT Time] (w : Writer B) (env : Env Time)
    (request : WriteRequest Vec) : Decidable (w.GaugeKept env request) :=
  decidable_of_iff (∀ i ∈ request.attributes.lookup "index-id",
    ∀ o ∈ (w.table i).lookup (w.chooseShard env i),
      if "delete" ∈ request.attributes then
        w.chooseShard env i = i ∧ request.id ∈ (w.objects.get o).index.liveIds ∧
          (w.objects.get o).index.Reaches request.id
      else request.id ∉ (w.objects.get o).index.liveIds ↔
        (w.objects.get o).index.liveIds.card < 2 ^ 53)
    ⟨fun h i o hi ho => h i hi o ho, fun h i hi o ho => h i o hi ho⟩

theorem gaugeKept_iff [LT Time] [DecidableLT Time] {w : Writer B} {env : Env Time}
    {request : WriteRequest Vec} {i : String} {o : Nat}
    (hi : request.attributes.lookup "index-id" = some i)
    (ho : (w.table i).lookup (w.chooseShard env i) = some o) :
    w.GaugeKept env request ↔
      if "delete" ∈ request.attributes then
        w.chooseShard env i = i ∧ request.id ∈ (w.objects.get o).index.liveIds ∧
          (w.objects.get o).index.Reaches request.id
      else request.id ∉ (w.objects.get o).index.liveIds ↔
        (w.objects.get o).index.liveIds.card < 2 ^ 53 := by
  refine ⟨fun h => h i o hi ho, fun h j o' hj ho' => ?_⟩
  obtain rfl := Option.some.inj (hi.symm.trans hj)
  obtain rfl := Option.some.inj (ho.symm.trans ho')
  exact h

/-- The writer between two requests. A gauge that was never set counts as 0. -/
structure Gauged (listed : String → List String) (w : Writer B) : Prop where
  linked : w.Linked
  settled : w.Settled listed
  shape : ∀ o, w.objects.Alloc o → Shape (w.objects.get o).index.rest
  backed : ∀ o, w.objects.Alloc o → Backed (w.objects.get o).index.rest
  small : ∀ i s o, (w.table i).lookup s = some o →
    (w.objects.get o).index.liveIds.card ≤ 2 ^ 53
  value : ∀ i s o, (w.table i).lookup s = some o →
    (w.vectorsCount.lookup (i, s)).getD 0 = (w.objects.get o).index.liveIds.card

namespace Gauged

variable {listed : String → List String} {w : Writer B} {i s : String} {o : Nat}

theorem truthful (h : Gauged listed w) : w.Truthful := by
  intro i s o n ho hn
  have hvalue := h.value i s o ho
  rwa [hn, Option.getD_some] at hvalue

theorem gaugeValue_eq (h : Gauged listed w) (ho : (w.table i).lookup s = some o) :
    w.gaugeValue (i, s) = (w.objects.get o).index.liveIds.card := by
  have hsmall := h.small i s o ho
  rw [gaugeValue, h.value i s o ho]
  exact sizeT_of_le (by omega)

/-- Two entries have two objects. -/
theorem unique (h : Gauged listed w) (ho : (w.table i).lookup s = some o) {j t : String} {o' : Nat}
    (ho' : (w.table j).lookup t = some o') (heq : o' = o) : (j, t) = (i, s) := by
  subst heq
  obtain ⟨-, hi, hs⟩ := h.linked i s o' ho
  obtain ⟨-, hj, ht⟩ := h.linked j t o' ho'
  rw [← hi, ← hs, hj, ht]

/-- The index behind an entry after a call on the object of `(i, s)`. -/
theorem index_settle (h : Gauged listed w) (ho : (w.table i).lookup s = some o)
    (index : Index B Text) {j t : String} {o' : Nat} (ho' : (w.table j).lookup t = some o') :
    ((w.settle o index).objects.get o').index =
      if (j, t) = (i, s) then index else (w.objects.get o').index := by
  rw [settle_get]
  by_cases heq : o' = o
  · rw [if_pos heq, if_pos (h.unique ho ho' heq)]
  · have hne : (j, t) ≠ (i, s) := by
      intro hnames
      cases hnames
      exact heq (Option.some.inj (ho'.symm.trans ho))
    rw [if_neg heq, if_neg hne]

/-- A gauge that is set along with a call on its own index. -/
theorem truthful_set_iff (h : Gauged listed w) (ho : (w.table i).lookup s = some o)
    (index : Index B Text) (v : Int) :
    ((w.settle o index).setGauge (i, s) v).Truthful ↔
      toDouble (sizeT v) = index.liveIds.card := by
  constructor
  · intro htrue
    have hown := htrue i s o (toDouble (sizeT v)) ho (AList.lookup_insert _)
    have hindex := h.index_settle ho index ho
    rw [if_pos rfl] at hindex
    exact hown.trans (congrArg (fun idx : Index B Text => idx.liveIds.card) hindex)
  · intro hvalue j t o' n ho' hn
    show n = ((w.settle o index).objects.get o').index.liveIds.card
    replace ho' : (w.table j).lookup t = some o' := ho'
    replace hn : (w.vectorsCount.insert (i, s) (toDouble (sizeT v))).lookup (j, t) = some n := hn
    rw [h.index_settle ho index ho']
    split
    · next hnames =>
      rw [hnames, AList.lookup_insert] at hn
      rw [← Option.some.inj hn, hvalue]
    · next hnames =>
      rw [AList.lookup_insert_ne hnames] at hn
      exact h.truthful j t o' n ho' hn

theorem set (h : Gauged listed w) (ho : (w.table i).lookup s = some o) {index : Index B Text}
    (hshape : Shape index.rest) (hbacked : Backed index.rest)
    (hsmall : index.liveIds.card ≤ 2 ^ 53) {v : Int}
    (hvalue : toDouble (sizeT v) = index.liveIds.card) :
    Gauged listed ((w.settle o index).setGauge (i, s) v) := by
  have hobject : ∀ Q : Index B Text → Prop, Q index →
      (∀ o', w.objects.Alloc o' → Q (w.objects.get o').index) →
      ∀ o', w.objects.Alloc o' → Q ((w.settle o index).objects.get o').index := by
    intro Q hnew hold o' ho'
    rw [settle_get]
    split
    · exact hnew
    · exact hold o' ho'
  refine ⟨h.linked.settle o index, h.settled, hobject (fun idx => Shape idx.rest) hshape h.shape,
    hobject (fun idx => Backed idx.rest) hbacked h.backed, fun j t o' ho' => ?_,
    fun j t o' ho' => ?_⟩
  · show ((w.settle o index).objects.get o').index.liveIds.card ≤ 2 ^ 53
    replace ho' : (w.table j).lookup t = some o' := ho'
    rw [h.index_settle ho index ho']
    split
    · exact hsmall
    · exact h.small j t o' ho'
  · show ((w.vectorsCount.insert (i, s) (toDouble (sizeT v))).lookup (j, t)).getD 0 =
      ((w.settle o index).objects.get o').index.liveIds.card
    replace ho' : (w.table j).lookup t = some o' := ho'
    rw [h.index_settle ho index ho']
    split
    · next hnames => rw [hnames, AList.lookup_insert, Option.getD_some, hvalue]
    · next hnames =>
      rw [AList.lookup_insert_ne hnames]
      exact h.value j t o' ho'

/-- A gauge that is decreased for a call on the index of another shard is wrong. -/
theorem not_truthful_other (h : Gauged listed w) (ho : (w.table i).lookup i = some o)
    {o' : Nat} (ho' : (w.table i).lookup s = some o') (hs : s ≠ i) (index : Index B Text) :
    ¬ ((w.settle o index).setGauge (i, s) ((w.gaugeValue (i, s) : Nat) - 1)).Truthful := by
  intro htrue
  have hown := htrue i s o' _ ho' (AList.lookup_insert _)
  have hindex := h.index_settle ho index ho'
  rw [if_neg fun hnames => hs (Prod.mk.inj hnames).2] at hindex
  have hcount : toDouble (sizeT ((w.gaugeValue (i, s) : Nat) - 1)) =
      (w.objects.get o').index.liveIds.card :=
    hown.trans (congrArg (fun idx : Index B Text => idx.liveIds.card) hindex)
  have hsmall := h.small i s o' ho'
  rw [h.gaugeValue_eq ho', toDouble_pred hsmall] at hcount
  split at hcount <;> omega

section Requests

variable [Preorder Time] [DecidableLT Time] {rt : Runtime B Text Vec Dist} {env : Env Time}
  {request : WriteRequest Vec} {w' : Writer B}

/-- An `add` on the index of the chosen shard. -/
theorem add (h : Gauged listed w) (ho : (w.table i).lookup s = some o) {index : Index B Text}
    {x : Text} {vec : Vec}
    (hadd : ({ (w.objects.get o).index with draws := w.draws } : Index B Text).add rt [(x, vec)] =
      .ok index) :
    (((w.settle o index).setGauge (i, s) ((w.gaugeValue (i, s) : Nat) + 1)).Truthful ↔
      (x ∉ (w.objects.get o).index.liveIds ↔ (w.objects.get o).index.liveIds.card < 2 ^ 53)) ∧
    ((x ∉ (w.objects.get o).index.liveIds ↔ (w.objects.get o).index.liveIds.card < 2 ^ 53) →
      Gauged listed ((w.settle o index).setGauge (i, s) ((w.gaugeValue (i, s) : Nat) + 1))) := by
  have halloc := (h.linked i s o ho).1
  have hsmall := h.small i s o ho
  have hshape := (h.shape o halloc).drawn w.draws
  have hdrawn : Backed ({ (w.objects.get o).index with draws := w.draws } : Index B Text).rest :=
    h.backed o halloc
  obtain ⟨hbacked, hmem⟩ := hdrawn.add hshape hadd
  have hlive : index.liveIds = insert x (w.objects.get o).index.liveIds := by
    ext y
    rw [hmem, Finset.mem_insert, List.map_singleton, List.mem_singleton, or_comm]
    rfl
  -- the count goes up with the gauge, except where one of the two stands still
  have hcount : toDouble (sizeT ((w.gaugeValue (i, s) : Nat) + 1)) = index.liveIds.card ↔
      (x ∉ (w.objects.get o).index.liveIds ↔
        (w.objects.get o).index.liveIds.card < 2 ^ 53) := by
    rw [h.gaugeValue_eq ho, toDouble_succ hsmall, hlive]
    by_cases hx : x ∈ (w.objects.get o).index.liveIds
    · rw [Finset.insert_eq_of_mem hx]
      simp only [hx, not_true_eq_false, false_iff]
      split <;> omega
    · rw [Finset.card_insert_of_notMem hx]
      simp only [hx, not_false_eq_true, true_iff]
      split <;> omega
  refine ⟨(h.truthful_set_iff ho index _).trans hcount, fun hkept => ?_⟩
  have hvalue := hcount.mpr hkept
  refine h.set ho (hshape.of_runs (Index.add_runs hadd)) hbacked ?_ hvalue
  rw [← hvalue, h.gaugeValue_eq ho, toDouble_succ hsmall]
  split <;> omega

/-- An `erase` on the index of the chosen shard. -/
theorem erase (h : Gauged listed w) (ho : (w.table i).lookup s = some o) {index : Index B Text}
    {x : Text}
    (herase : index =
      ({ (w.objects.get o).index with draws := w.draws } : Index B Text).erase [x]) :
    (((w.settle o index).setGauge (i, s) ((w.gaugeValue (i, s) : Nat) - 1)).Truthful ↔
      x ∈ (w.objects.get o).index.liveIds ∧ (w.objects.get o).index.Reaches x) ∧
    (x ∈ (w.objects.get o).index.liveIds ∧ (w.objects.get o).index.Reaches x →
      Gauged listed ((w.settle o index).setGauge (i, s) ((w.gaugeValue (i, s) : Nat) - 1))) := by
  have halloc := (h.linked i s o ho).1
  have hsmall := h.small i s o ho
  have hshape := (h.shape o halloc).drawn w.draws
  have hdrawn : Backed ({ (w.objects.get o).index with draws := w.draws } : Index B Text).rest :=
    h.backed o halloc
  obtain ⟨hreached, hmissed⟩ := Index.liveIds_erase hshape x
  rw [← herase] at hreached hmissed
  replace hreached : (w.objects.get o).index.Reaches x →
    index.liveIds = (w.objects.get o).index.liveIds.erase x := hreached
  replace hmissed : ¬ (w.objects.get o).index.Reaches x →
    index.liveIds = (w.objects.get o).index.liveIds ∧ x ∈ (w.objects.get o).index.liveIds := hmissed
  have hcount : toDouble (sizeT ((w.gaugeValue (i, s) : Nat) - 1)) = index.liveIds.card ↔
      x ∈ (w.objects.get o).index.liveIds ∧ (w.objects.get o).index.Reaches x := by
    rw [h.gaugeValue_eq ho, toDouble_pred hsmall]
    by_cases hreach : (w.objects.get o).index.Reaches x
    · rw [hreached hreach]
      by_cases hx : x ∈ (w.objects.get o).index.liveIds
      · have hpos := Finset.card_pos.mpr ⟨x, hx⟩
        rw [Finset.card_erase_of_mem hx, if_neg (by omega)]
        exact iff_of_true rfl ⟨hx, hreach⟩
      · rw [Finset.erase_eq_of_notMem hx]
        refine iff_of_false (fun heq => ?_) fun hboth => hx hboth.1
        split at heq <;> omega
    · rw [(hmissed hreach).1]
      refine iff_of_false (fun heq => ?_) fun hboth => hreach hboth.2
      split at heq <;> omega
  refine ⟨(h.truthful_set_iff ho index _).trans hcount, fun hkept => ?_⟩
  have hless : index.liveIds.card ≤ 2 ^ 53 := by
    rw [hreached hkept.2]
    exact (Finset.card_le_card (Finset.erase_subset _ _)).trans hsmall
  subst herase
  exact h.set ho (hshape.erase [x]) (hdrawn.erase hshape hkept.2) hless (hcount.mpr hkept)

/-- What a request that is answered OK does to the gauges. -/
theorem step (h : Gauged listed w) (hlisted : env.listShardIds = listed)
    (hok : w.processWriteRequest rt env request = .ok (w', .ok)) :
    (w'.Truthful ↔ w.GaugeKept env request) ∧ (w.GaugeKept env request → Gauged listed w') := by
  have hsame : w.updateIndexesState rt env = w :=
    Settled.updateIndexesState (hlisted ▸ h.settled)
  obtain ⟨i, o, index, hi, ⟨hadd, ho, hindex, rfl⟩ | ⟨hdelete, ho, hindex, rfl⟩⟩ :=
    processWriteRequest_answered hsame hok
  · rw [gaugeKept_iff hi ho, if_neg hadd]
    exact h.add ho hindex
  · -- the chosen shard is one of the table, which has at least the one named like the index
    have hnamesake : i ∈ w.table i := AList.lookup_isSome.mp (by rw [ho]; rfl)
    have hchosen := (chooseShard_least w env hnamesake).1
    obtain ⟨o', ho'⟩ := Option.isSome_iff_exists.mp (AList.lookup_isSome.mpr hchosen)
    rw [gaugeKept_iff hi ho', if_pos hdelete]
    by_cases hs : w.chooseShard env i = i
    · rw [hs] at ho' ⊢
      obtain rfl : o = o' := Option.some.inj (ho.symm.trans ho')
      simpa only [true_and] using h.erase ho hindex
    · exact ⟨iff_of_false (h.not_truthful_other ho ho' hs index) fun hboth => hs hboth.1,
        fun hboth => absurd hboth.1 hs⟩

end Requests

end Gauged

/-! ## Runs -/

section Run

variable [Preorder Time] [DecidableLT Time]

/-- The writer after a request that is answered OK. -/
def accept (rt : Runtime B Text Vec Dist) (w : Writer B) (r : Env Time × WriteRequest Vec) :
    Option (Writer B) :=
  match w.processWriteRequest rt r.1 r.2 with
  | .ok (w, .ok) => some w
  | _ => none

/-- The writer after requests that are all answered OK. -/
def acceptAll (rt : Runtime B Text Vec Dist) (w : Writer B)
    (requests : List (Env Time × WriteRequest Vec)) : Option (Writer B) :=
  requests.foldlM (accept rt) w

theorem accept_eq_some {rt : Runtime B Text Vec Dist} {w w' : Writer B}
    {r : Env Time × WriteRequest Vec} (h : w.accept rt r = some w') :
    w.processWriteRequest rt r.1 r.2 = .ok (w', .ok) := by
  unfold accept at h
  split at h
  · next heq => rw [heq, Option.some.inj h]
  · cases h

omit [Preorder Time] [DecidableLT Time] in
theorem Gauged.start (rt : Runtime B Text Vec Dist)
    (indexesConfig : AList fun _ : String => IndexConfig) (env : Env Time) :
    Gauged env.listShardIds ((Writer.create rt indexesConfig).updateIndexesState rt env) := by
  have hcreate : (Writer.create rt indexesConfig : Writer B).Linked := fun i s o ho => by cases ho
  have hnull : (Writer.create rt indexesConfig : Writer B).NoNulls := fun i s o ho =>
    (hcreate i s o ho).1
  have hempty : ∀ config draws, (Index.create rt config true draws : Index B Text).liveIds = ∅ := by
    intro config draws
    apply Finset.eq_empty_of_forall_notMem
    intro x hx
    obtain ⟨p, -, pos, hlive⟩ := Index.mem_liveIds.mp hx
    rw [Index.create_seg] at hlive
    exact FaissIndex.not_liveAt_create rt config.kind pos x hlive
  obtain ⟨hlinked, hobjects⟩ := hcreate.updateIndexesState rt env
    (Q := fun idx => Shape idx.rest ∧ Backed idx.rest ∧ idx.liveIds = ∅)
    (fun config draws => ⟨Shape.create rt config true draws, Backed.create rt config true draws,
      hempty config draws⟩) (fun o ho => absurd ho (Nat.not_lt_zero o))
  refine ⟨hlinked, settled_updateIndexesState rt env hnull, fun o ho => (hobjects o ho).1,
    fun o ho => (hobjects o ho).2.1, fun i s o ho => ?_, fun i s o ho => ?_⟩
  · rw [(hobjects o (hlinked i s o ho).1).2.2]
    exact Nat.zero_le _
  · rw [(updateIndexesState_rest rt env _).2, (hobjects o (hlinked i s o ho).1).2.2]
    rfl

/-- Over requests answered OK while etcd lists the same shards, every gauge that has been set is
the number of live ids of its shard after each request, exactly when each request keeps the gauge
right in the state it finds. -/
theorem gauge_truthful_iff (rt : Runtime B Text Vec Dist)
    (indexesConfig : AList fun _ : String => IndexConfig) (env : Env Time)
    (requests : List (Env Time × WriteRequest Vec))
    (hfixed : ∀ r ∈ requests, r.1.listShardIds = env.listShardIds)
    (hok : ∃ w, ((Writer.create rt indexesConfig).updateIndexesState rt env).acceptAll rt requests =
      some w) :
    (∀ part w, part <+: requests →
      ((Writer.create rt indexesConfig).updateIndexesState rt env).acceptAll rt part = some w →
      w.Truthful) ↔
    ∀ part r w, part ++ [r] <+: requests →
      ((Writer.create rt indexesConfig).updateIndexesState rt env).acceptAll rt part = some w →
      w.GaugeKept r.1 r.2 := by
  have hstart : Gauged env.listShardIds
    ((Writer.create rt indexesConfig).updateIndexesState rt env) := .start rt indexesConfig env
  apply foldlM_prefixes_iff hstart (fun w hw => hw.truthful) ?_ hok
  intro w w' r hr hw haccept
  exact hw.step (hfixed r hr) (accept_eq_some haccept)

end Run

/-- A writer with one index and the given shards. -/
def docsWriter (shardIds : List String) : Writer (List Nat) :=
  (Writer.create (lineRuntime Text id) docsConfig).updateIndexesState (lineRuntime Text id)
    (docsEnv shardIds [])

/-- The writer after requests that are answered OK. -/
def docsAfter (shardIds : List String) (requests : List (WriteRequest Nat)) :
    Option (Writer (List Nat)) :=
  (docsWriter shardIds).acceptAll (lineRuntime Text id)
    (requests.map fun request => (docsEnv shardIds [], request))

/-- The gauge of the shard and the number of its live ids. -/
def gaugeOf (w : Writer (List Nat)) (shardId : String) : Option (Nat × Nat) := do
  let o ← (w.table "docs").lookup shardId
  let n ← w.vectorsCount.lookup ("docs", shardId)
  return (n, (w.objects.get o).index.liveIds.card)

theorem Truthful.gaugeOf {w : Writer (List Nat)} (h : w.Truthful) {shardId : String}
    {counts : Nat × Nat} (hcounts : w.gaugeOf shardId = some counts) : counts.1 = counts.2 := by
  simp only [Writer.gaugeOf, Option.bind_eq_bind, Option.bind_eq_some_iff, Option.pure_def,
    Option.some.injEq] at hcounts
  obtain ⟨o, ho, n, hn, rfl⟩ := hcounts
  exact h "docs" shardId o n ho hn

/-- An id that is added twice is counted twice, a delete of an absent id wraps, and a delete that
changes one shard is counted for another. -/
theorem gauge_wrong :
    (∃ w, docsAfter ["docs"] [addRequest 97 10, addRequest 97 20] = some w ∧
      w.gaugeOf "docs" = some (2, 1) ∧ ¬ w.Truthful) ∧
    (∃ w, docsAfter ["docs"] [deleteRequest 97] = some w ∧
      w.gaugeOf "docs" = some (2 ^ 64, 0) ∧ ¬ w.Truthful) ∧
    ∃ w, docsAfter ["docs", "d"] [addRequest 97 10, deleteRequest 97] = some w ∧
      w.gaugeOf "d" = some (0, 1) ∧ ¬ w.Truthful := by
  have hwrong : ∀ {shardIds : List String} {requests : List (WriteRequest Nat)} {shardId : String}
      {counts : Nat × Nat}, (docsAfter shardIds requests).bind (gaugeOf · shardId) = some counts →
      counts.1 ≠ counts.2 → ∃ w, docsAfter shardIds requests = some w ∧
        w.gaugeOf shardId = some counts ∧ ¬ w.Truthful := by
    intro shardIds requests shardId counts hrun hne
    obtain ⟨w, hw, hcounts⟩ := Option.bind_eq_some_iff.mp hrun
    exact ⟨w, hw, hcounts, fun htrue => hne (htrue.gaugeOf hcounts)⟩
  exact ⟨hwrong (by decide +kernel) (by decide), hwrong (by decide +kernel) (by decide),
    hwrong (by decide +kernel) (by decide)⟩

/-- Three documents are added, and one of them is deleted in between. -/
def steadyRequests : List (Env Nat × WriteRequest Nat) :=
  [addRequest 97 10, addRequest 98 20, deleteRequest 97, addRequest 99 30].map fun request =>
    (docsEnv ["docs"] [], request)

theorem gauge_truthful_iff_steady :
    (∃ w, (docsWriter ["docs"]).acceptAll (lineRuntime Text id) steadyRequests = some w ∧
      w.gaugeOf "docs" = some (2, 2)) ∧
    ∀ part w, part <+: steadyRequests →
      (docsWriter ["docs"]).acceptAll (lineRuntime Text id) part = some w → w.Truthful := by
  have hrun : ∃ w, (docsWriter ["docs"]).acceptAll (lineRuntime Text id) steadyRequests = some w ∧
      w.gaugeOf "docs" = some (2, 2) := Option.bind_eq_some_iff.mp (by decide +kernel)
  have hkept : ∀ part ∈ steadyRequests.inits, ∀ r ∈ part.getLast?,
      ∀ w ∈ (docsWriter ["docs"]).acceptAll (lineRuntime Text id) part.dropLast,
        w.GaugeKept r.1 r.2 := by decide +kernel
  have hfixed : ∀ r ∈ steadyRequests, r.1.listShardIds = (docsEnv ["docs"] []).listShardIds := by
    intro r hr
    obtain ⟨request, -, rfl⟩ := List.mem_map.mp hr
    rfl
  refine ⟨hrun, (gauge_truthful_iff (lineRuntime Text id) docsConfig (docsEnv ["docs"] [])
    steadyRequests hfixed (hrun.imp fun w hw => hw.1)).mpr fun part r w hpart hw => ?_⟩
  refine hkept (part ++ [r]) ((List.mem_inits _ _).mpr hpart) r ?_ w ?_
  · rw [List.getLast?_concat]
    rfl
  · rwa [List.dropLast_concat]

end Writer

end Vecodex
