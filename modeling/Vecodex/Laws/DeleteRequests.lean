import Vecodex.Laws.Deletion
import Vecodex.Laws.Writer

/-!
# Delete requests

A write request with a `delete` attribute calls `erase` on `shards[index_id][index_id]`, the shard
that is named like the index. There need not be such a shard, and then the call goes through a
null pointer (`delete_without_namesake`); and the document need not be in it, since it was added to
the shard that was fastest at the time.

`Writer.DeleteReaches` says what has to hold for a delete request to be right. Exactly then the
call is made on an existing index and no shard keeps a live copy
(`delete_request_complete_iff`).
-/

namespace Vecodex

open Lib

variable {B Vec Dist Time : Type}

namespace Writer

/-- No shard of the index holds a live vector under `x`. -/
def Cleared (w : Writer B) (i : String) (x : Text) : Prop :=
  ∀ s o, (w.table i).lookup s = some o → NoCopy x (w.objects.get o).index.rest

/-- One of the shards is named like the index and an erase in it reaches every copy of `x`; the
other shards have none. -/
def DeleteReaches (w : Writer B) (i : String) (x : Text) : Prop :=
  (∃ o, (w.table i).lookup i = some o ∧ (w.objects.get o).index.Reaches x) ∧
    ∀ s o, s ≠ i → (w.table i).lookup s = some o → NoCopy x (w.objects.get o).index.rest

instance (w : Writer B) (i : String) (x : Text) : Decidable (w.DeleteReaches i x) :=
  decidable_of_iff ((∃ e ∈ (w.table i).entries, e.1 = i ∧ (w.objects.get e.2).index.Reaches x) ∧
      ∀ e ∈ (w.table i).entries, e.1 ≠ i → NoCopy x (w.objects.get e.2).index.rest) <| by
    refine and_congr ⟨?_, ?_⟩ ⟨?_, ?_⟩
    · rintro ⟨e, he, rfl, hreaches⟩
      exact ⟨e.2, AList.mem_lookup_iff.mpr he, hreaches⟩
    · rintro ⟨o, ho, hreaches⟩
      exact ⟨⟨i, o⟩, AList.mem_lookup_iff.mp ho, rfl, hreaches⟩
    · exact fun h s o hs ho => h ⟨s, o⟩ (AList.mem_lookup_iff.mp ho) hs
    · exact fun h e he hne => h e.1 e.2 hne (AList.mem_lookup_iff.mpr he)

/-- An erase in the namesake of the index clears the index exactly when it reaches all copies. -/
theorem cleared_settle_erase_iff {w : Writer B} (hw : w.Linked)
    (hshape : ∀ o, w.objects.Alloc o → Shape (w.objects.get o).index.rest) {i : String} {o : Nat}
    (ho : (w.table i).lookup i = some o) {x : Text} {index : Index B Text}
    (hindex : index =
      ({ (w.objects.get o).index with draws := w.draws } : Index B Text).erase [x]) :
    (w.settle o index).Cleared i x ↔ w.DeleteReaches i x := by
  have hgone : NoCopy x index.rest ↔ (w.objects.get o).index.Reaches x := by
    have hold := hshape o (hw i i o ho).1
    rw [hindex]
    exact Index.noCopy_erase_iff (hold.drawn w.draws) List.mem_cons_self
  have hsame : ∀ s o', s ≠ i → (w.table i).lookup s = some o' →
      (w.settle o index).objects.get o' = w.objects.get o' := by
    intro s o' hs ho'
    rw [settle_get, if_neg]
    rintro rfl
    exact hs ((hw i s o' ho').2.2.symm.trans (hw i i o' ho).2.2)
  have hself : (w.settle o index).objects.get o = { w.objects.get o with index := index } := by
    rw [settle_get, if_pos rfl]
  constructor
  · intro h
    refine ⟨⟨o, ho, hgone.mp ?_⟩, fun s o' hs ho' => ?_⟩
    · have hcopy := h i o ho
      rwa [hself] at hcopy
    · have hcopy := h s o' ho'
      rwa [hsame s o' hs ho'] at hcopy
  · rintro ⟨⟨o', ho', hreaches⟩, hothers⟩ s o'' ho''
    obtain rfl : o = o' := Option.some.inj (ho.symm.trans ho')
    by_cases hs : s = i
    · subst hs
      obtain rfl : o = o'' := Option.some.inj (ho.symm.trans ho'')
      rw [hself]
      exact hgone.mpr hreaches
    · rw [hsame s o'' hs ho'']
      exact hothers s o'' hs ho''

end Writer

variable [LT Time] [DecidableLT Time]

/-- After every run, a delete request for an index with shards erases in an existing index object
and leaves no live copy of its id in any shard, exactly when it reaches all copies. -/
theorem delete_request_complete_iff (rt : Runtime B Text Vec Dist) (platform : Platform B)
    (indexesConfig : AList fun _ : String => IndexConfig)
    (searchersConfigs : String → Option (List ShardConfig)) (env : Env Time)
    (events : List (Event Vec Time)) (st : System B)
    (hrun : (System.start rt indexesConfig searchersConfigs env).run rt platform events = .ok st)
    (env' : Env Time) (request : WriteRequest Vec) (i : String)
    (hindex : request.attributes.lookup "index-id" = some i)
    (hdelete : "delete" ∈ request.attributes)
    (hshards : i ∈ (st.writer.updateIndexesState rt env').shards) :
    (∃ w, st.writer.processWriteRequest rt env' request = .ok (w, .ok) ∧ w.Cleared i request.id) ↔
      (st.writer.updateIndexesState rt env').DeleteReaches i request.id := by
  obtain ⟨hlinked, -, hshape⟩ := System.objects_invariant (Q := fun idx => Shape idx.rest) hrun
    (fun config draws => Shape.create rt config true draws)
    (fun _ _ _ _ _ h hruns => h.of_runs hruns)
  obtain ⟨hlinked', hshape'⟩ := hlinked.updateIndexesState rt env' (Q := fun idx => Shape idx.rest)
    (fun config draws => Shape.create rt config true draws) hshape
  generalize hupdate : st.writer.updateIndexesState rt env' = u at hlinked' hshape' hshards ⊢
  have hprocess : st.writer.processWriteRequest rt env' request =
      (u.call rt i i (.erase [request.id]) >>= fun called =>
        .ok (called.setGauge (i, u.chooseShard env' i)
          ((u.gaugeValue (i, u.chooseShard env' i) : Nat) - 1), .ok)) := by
    unfold Writer.processWriteRequest
    dsimp only
    rw [hindex, hupdate]
    dsimp only
    rw [if_neg (not_not.mpr hshards), if_neg (not_not.mpr hdelete)]
    rfl
  rw [hprocess]
  unfold Writer.call
  cases ho : (u.table i).lookup i with
  | none =>
    constructor
    · rintro ⟨w, hw, -⟩
      cases hw
    · rintro ⟨⟨o, ho', -⟩, -⟩
      cases ho.symm.trans ho'
  | some o =>
    have hclear := Writer.cleared_settle_erase_iff hlinked' hshape' ho (x := request.id) rfl
    constructor
    · rintro ⟨w, hw, hcleared⟩
      cases hw
      exact hclear.mp hcleared
    · intro h
      exact ⟨_, rfl, hclear.mpr h⟩

/-- The only shard is not named like the index. -/
theorem delete_without_namesake :
    ∃ st, (System.start (lineRuntime Text id) docsConfig (fun _ => none)
        (docsEnv ["east"] [])).run (lineRuntime Text id) linePlatform
        [.write (docsEnv ["east"] []) (addRequest 97 10)] = .ok st ∧
      "docs" ∈ (st.writer.updateIndexesState (lineRuntime Text id) (docsEnv ["east"] [])).shards ∧
      st.writer.processWriteRequest (lineRuntime Text id) (docsEnv ["east"] [])
        (deleteRequest 97) = .error .nullIndex :=
  exists_ok (by decide +kernel)

/-- The document is in the shard that is named like the index, which is the faster one. -/
theorem delete_request_complete_namesake :
    ∃ st w, (System.start (lineRuntime Text id) docsConfig (fun _ => none)
        (docsEnv ["docs", "docs-2"] [])).run (lineRuntime Text id) linePlatform
        [.write (docsEnv ["docs", "docs-2"] []) (addRequest 97 10)] = .ok st ∧
      st.writer.processWriteRequest (lineRuntime Text id) (docsEnv ["docs", "docs-2"] [])
        (deleteRequest 97) = .ok (w, .ok) ∧ w.Cleared "docs" (letter 97) := by
  obtain ⟨st, hrun, hshards, hreaches⟩ : ∃ st, (System.start (lineRuntime Text id) docsConfig
      (fun _ => none) (docsEnv ["docs", "docs-2"] [])).run (lineRuntime Text id) linePlatform
      [.write (docsEnv ["docs", "docs-2"] []) (addRequest 97 10)] = .ok st ∧
      "docs" ∈ (st.writer.updateIndexesState (lineRuntime Text id)
        (docsEnv ["docs", "docs-2"] [])).shards ∧
      (st.writer.updateIndexesState (lineRuntime Text id)
        (docsEnv ["docs", "docs-2"] [])).DeleteReaches "docs" (letter 97) :=
    exists_ok (by decide +kernel)
  obtain ⟨w, hw⟩ := (delete_request_complete_iff (lineRuntime Text id) linePlatform docsConfig
    (fun _ => none) (docsEnv ["docs", "docs-2"] []) _ st hrun (docsEnv ["docs", "docs-2"] [])
    (deleteRequest 97) "docs" (by decide +kernel) (by decide +kernel) hshards).mpr hreaches
  exact ⟨st, w, hrun, hw⟩

end Vecodex
