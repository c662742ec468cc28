import Vecodex.Laws.Fresh
import Vecodex.Laws.Objects

/-!
# Where the documents of a segment come from

A segment of the writer binds no id but those that were put into its index: rows enter by `add`, and
a join moves rows from one segment to its neighbour. This holds for every history of `add` and
`erase`, with ids and segment ids that repeat. The id of a segment is always a value of `rand()`,
and the positions it binds are counted by the rows that were added; so its file can be read again,
and what is read binds the same ids (`Sourced.reads`).
-/

namespace Vecodex

open Lib

variable {B ID Vec Dist Time : Type} [DecidableEq ID]

/-- The change brings no document but those of `docs`, and no segment. -/
def Change.Within (docs : ID → Prop) : Change B ID Vec → Prop
  | .put x _ => docs x
  | .drop _ => True
  | .push _ => False

/-! ## One index -/

/-- What holds of an index all of whose documents are of `docs`, after at most `k` changes. -/
structure Sourced (rt : Runtime B ID Vec Dist) (docs : ID → Prop) (k : Nat) (w : Work B ID) :
    Prop where
  shape : Shape w
  bounded : Bounded k w
  ids : ∀ p x, x ∈ (w.index.seg p).index.ids → docs x
  drawn : ∀ p, ∃ m, rt.rand m = w.index.idOf p

namespace Sourced

variable {rt : Runtime B ID Vec Dist} {docs : ID → Prop} {k : Nat} {w w' : Work B ID}

theorem create (rt : Runtime B ID Vec Dist) (docs : ID → Prop) (k : Nat) (config : IndexConfig)
    (draws : Nat) : Sourced rt docs k (Index.create rt config true draws : Index B ID).rest where
  shape := .create rt config true draws
  bounded := .create rt k config draws
  ids p x hx := by
    replace hx : x ∈ ((Index.create rt config true draws : Index B ID).seg p).index.ids := hx
    rw [Index.create_seg] at hx
    exact absurd hx (FaissIndex.not_mem_ids_create rt config.kind x)
  drawn p := by
    refine ⟨draws, ?_⟩
    show _ = ((Index.create rt config true draws : Index B ID).seg p).segId
    rw [Index.create_seg]
    rfl

theorem mono (h : Sourced rt docs k w) {docs' : ID → Prop} {k' : Nat}
    (hdocs : ∀ x, docs x → docs' x) (hle : k ≤ k') : Sourced rt docs' k' w :=
  ⟨h.shape, h.bounded.mono hle, fun p x hx => hdocs x (h.ids p x hx), h.drawn⟩

/-- A step that leaves the segments alone. -/
theorem quiet (h : Sourced rt docs k w) (hshape : Shape w')
    (heap : w'.index.heap = w.index.heap) (last : w'.index.last = w.index.last)
    (current : ∀ p, p ∈ w'.index.current ↔ p ∈ w.index.current) : Sourced rt docs k w' where
  shape := hshape
  bounded := h.bounded.quiet heap last current
  ids p x hx := by
    rw [Growth.quiet_seg heap] at hx
    exact h.ids p x hx
  drawn p := by
    rw [Index.idOf, Growth.quiet_seg heap]
    exact h.drawn p

theorem append (h : Sourced rt docs k w) (rows : List (ID × Vec))
    (hdocs : ∀ x ∈ rows.map Prod.fst, docs x)
    (hshape : Shape { w with index := w.index.appendLast rt rows }) :
    Sourced rt docs (k + rows.length) { w with index := w.index.appendLast rt rows } where
  shape := hshape
  bounded := h.bounded.appended rows
  ids p x hx := by
    replace hx : x ∈ ((w.index.appendLast rt rows).seg p).index.ids := hx
    rw [Index.appendLast_seg] at hx
    split at hx
    · rcases (FaissIndex.mem_addBatch_ids (h.shape.wf p) rt rows x).mp hx with hx | hx
      · exact h.ids p x hx
      · exact hdocs x hx
    · exact h.ids p x hx
  drawn p := by
    show ∃ m, rt.rand m = (w.index.appendLast rt rows).idOf p
    rw [Index.appendLast_idOf]
    exact h.drawn p

/-- A new open segment binds nothing and draws its id. -/
theorem sealLast (h : Sourced rt docs k w) {idx : Index B ID} {fresh : List Nat}
    (stored : w.index.storageAdd w.index.last = .ok idx)
    (hshape : Shape { w with index := idx.openNext rt, fresh := fresh }) :
    Sourced rt docs k { w with index := idx.openNext rt, fresh := fresh } := by
  have hseg : ∀ p, (idx.openNext rt).seg p = _ := fun p => Index.openNext_seg stored p
  have hcurrent : ∀ p, p ∈ (idx.openNext rt).current ↔ p ∈ w.index.current ∨ p = w.index.last :=
    fun p => Index.mem_openNext_current stored
  have hbounded : Bounded k { w with index := idx.openNext rt, fresh := fresh } := by
    obtain ⟨levels, -, rfl⟩ := Index.storageAdd_eq_ok stored
    exact h.bounded.sealed h.shape rfl rfl hcurrent
  refine ⟨hshape, hbounded, fun p x hx => ?_, fun p => ?_⟩
  · replace hx : x ∈ ((idx.openNext rt).seg p).index.ids := hx
    rw [hseg] at hx
    split at hx
    · exact absurd hx (FaissIndex.not_mem_ids_create rt w.index.config.kind x)
    · exact h.ids p x hx
  · show ∃ m, rt.rand m = ((idx.openNext rt).seg p).segId
    rw [hseg]
    split
    · exact ⟨w.index.draws, rfl⟩
    · exact h.drawn p

/-- The survivor of a join takes the rows of its neighbour and draws a new id. -/
theorem join (h : Sourced rt docs k w) {j a b : Nat} {erased inserted : List Nat}
    (left : w.index.levels.cell w.level j = some a)
    (right : w.index.levels.cell w.level (j + 1) = some b)
    (hshape : Shape { w with
      index := w.index.join rt w.level j a b, erased := erased, inserted := inserted }) :
    Sourced rt docs k { w with
      index := w.index.join rt w.level j a b, erased := erased, inserted := inserted } where
  shape := hshape
  bounded := h.bounded.joined h.shape left right rfl
  ids p x hx := by
    replace hx : x ∈ ((w.index.join rt w.level j a b).seg p).index.ids := hx
    rw [Index.join_seg] at hx
    split at hx
    · rcases (FaissIndex.mem_addBatch_ids (h.shape.wf a) rt _ x).mp hx with hx | hx
      · exact h.ids a x hx
      · exact h.ids b x (((FaissIndex.mem_survivors_ids rt _ x).mp hx).mem_ids (h.shape.wf b))
    · exact h.ids p x hx
  drawn p := by
    show ∃ m, rt.rand m = (w.index.join rt w.level j a b).idOf p
    rw [Index.join_idOf]
    split
    · exact ⟨_, rfl⟩
    · exact h.drawn p

/-- An erase binds nothing. -/
theorem erase (h : Sourced rt docs k w) (ids : List ID)
    (hshape : Shape { w with index := w.index.erase ids }) :
    Sourced rt docs k { w with index := w.index.erase ids } := by
  have hseg : ∀ p, ((w.index.erase ids).seg p).index.ids = (w.index.seg p).index.ids ∧
      ((w.index.erase ids).seg p).index.nextId = (w.index.seg p).index.nextId := by
    intro p
    rw [Index.erase_seg]
    split
    · exact ⟨FaissIndex.eraseBatch_ids _ ids, FaissIndex.eraseBatch_nextId _ ids⟩
    · exact ⟨rfl, rfl⟩
  refine ⟨hshape, ⟨?_, fun p => ?_⟩, fun p x hx => ?_, fun p => ?_⟩
  · show ∑ p ∈ w.index.owners.toFinset, ((w.index.erase ids).seg p).index.nextId ≤ k
    simp only [hseg]
    exact h.bounded.total
  · exact (hseg p).2.trans_le (h.bounded.each p)
  · replace hx : x ∈ ((w.index.erase ids).seg p).index.ids := hx
    rw [(hseg p).1] at hx
    exact h.ids p x hx
  · show ∃ m, rt.rand m = (w.index.erase ids).idOf p
    rw [Index.erase_idOf]
    exact h.drawn p

/-- Every step of an index that nothing is pushed to. -/
theorem step (h : Sourced rt docs k w) {changes : List (Change B ID Vec)}
    (hwithin : ∀ c ∈ changes, c.Within docs) (hstep : Step rt changes w w') :
    Sourced rt docs (k + changes.length) w' := by
  have hshape := h.shape.step hstep
  cases hstep with
  | append _ rows =>
    rw [List.length_map]
    refine h.append rows (fun x hx => ?_) hshape
    obtain ⟨row, hrow, rfl⟩ := List.mem_map.mp hx
    exact hwithin _ (List.mem_map_of_mem hrow)
  | sealLast _ idle full stored => exact h.sealLast stored hshape
  | report =>
    obtain ⟨calls, hcalls⟩ := w.index.notify_eq [] w.fresh
    refine h.quiet hshape ?_ ?_ fun p => ?_ <;> rw [hcalls]
    exact Iff.rfl
  | merge hmerge =>
    cases hmerge with
    | join j reported left right kinds => exact h.join left right hshape
    | finish =>
      obtain ⟨segments, trace, calls, heq, -, -⟩ := w.index.finishPass_eq w.erased w.inserted
      refine h.quiet hshape ?_ ?_ fun p => ?_ <;> rw [heq]
      exact Iff.rfl
    | compact idle =>
      refine h.quiet hshape rfl rfl fun p => ?_
      rw [show w.index.compactLevels.current = w.index.current from
        w.index.current_compactLevels]
  | elsewhere _ n => exact h.quiet hshape rfl rfl fun _ => Iff.rfl
  | erase _ ids => exact (h.erase ids hshape).mono (fun _ hx => hx) (Nat.le_succ k)
  | push _ wf idle stored => exact (hwithin _ List.mem_cons_self).elim

theorem of_runs (h : Sourced rt docs k w) {changes : List (Change B ID Vec)}
    (hwithin : ∀ c ∈ changes, c.Within docs) (hruns : Runs (Step rt) changes w w') :
    Sourced rt docs (k + changes.length) w' := by
  refine hruns.invariant (P := fun ks u => (∀ c ∈ ks, c.Within docs) →
    Sourced rt docs (k + ks.length) u) ?_ (fun _ => h) hwithin
  intro ks ls u v hu hstep hwithin
  rw [List.length_append, ← Nat.add_assoc]
  exact (hu fun c hc => hwithin c (List.mem_append_left _ hc)).step
    (fun c hc => hwithin c (List.mem_append_right _ hc)) hstep

end Sourced

/-! ## Files -/

/-- The segment that is read from the file, if one is, has no live documents but those of `docs`. -/
def FileWithin (files : Files B) (docs : Text → Prop) (file : Bytes) : Prop :=
  ∀ g rest, deserealizeSegment files file = .ok (some g, rest) → ∀ x, g.index.LiveId x → docs x

theorem FileWithin.mono {files : Files B} {docs docs' : Text → Prop} {file : Bytes}
    (h : FileWithin files docs file) (hdocs : ∀ x, docs x → docs' x) :
    FileWithin files docs' file :=
  fun g rest hg x hx => hdocs x (h g rest hg x hx)

/-- What is read from the file of a segment was put into the index. -/
theorem Sourced.reads {rt : Runtime B Text Vec Dist} {docs : Text → Prop} {k : Nat}
    {w : Work B Text} (h : Sourced rt docs k w) (files : Files B)
    (hrand : ∀ m, rt.rand m < 256 ^ 8) (hk : k < 256 ^ 8) (p : Nat) :
    FileWithin files docs (serializeSegment rt files (w.index.seg p)) := by
  intro g rest hg x ⟨pos, hpos⟩
  obtain ⟨m, hm⟩ := h.drawn p
  have hid : (w.index.seg p).segId < 256 ^ 8 := Nat.lt_of_le_of_lt hm.ge (hrand m)
  have hfits := (h.shape.wf p).fits ((h.bounded.each p).trans_lt hk)
  obtain ⟨g', hread, -, hsame, -⟩ := deserealizeSegment_serializeSegment rt files hid hfits []
  rw [List.append_nil, hg] at hread
  cases hread
  have hlive : (w.index.seg p).index.LiveId x := ⟨pos, (hsame.liveAt_iff pos x).mp hpos⟩
  exact h.ids p x (hlive.mem_ids (h.shape.wf p))

/-! ## The objects of a writer -/

namespace Writer

/-- What holds of a new object and of all others holds of all objects after a table step. -/
theorem TableStep.forall_shards {rt : Runtime B Text Vec Dist} {env : Env Time} {w w' : Writer B}
    (hstep : TableStep rt env w w') {Q : Shard B → Prop}
    (hcreate : ∀ config i s, Q ⟨Index.create rt config true w.draws, i, s⟩)
    (h : ∀ o, w.objects.Alloc o → Q (w.objects.get o)) :
    ∀ o, w'.objects.Alloc o → Q (w'.objects.get o) := by
  rcases hstep.objects_eq with ⟨hobjects, -⟩ | ⟨i, s, config, hobjects, -⟩
  · rw [hobjects]
    exact h
  · rw [hobjects]
    intro o ho
    rcases Heap.alloc_cases ho with ⟨ho, hget⟩ | ⟨-, hget⟩
    · rw [hget]
      exact h o ho
    · rw [hget]
      exact hcreate config i s

/-- A request that returns was refused, or made its call on an object of the index it names. -/
theorem processWriteRequest_cases [LT Time] [DecidableLT Time] {rt : Runtime B Text Vec Dist}
    {w w' : Writer B} {env : Env Time} {request : WriteRequest Vec} {status : Status}
    (h : w.processWriteRequest rt env request = .ok (w', status)) :
    w' = w.updateIndexesState rt env ∧ status ≠ .ok ∨
      ∃ i s o index gauge, request.attributes.lookup "index-id" = some i ∧
        ((w.updateIndexesState rt env).table i).lookup s = some o ∧
        ({ ((w.updateIndexesState rt env).objects.get o).index with
            draws := (w.updateIndexesState rt env).draws } : Index B Text).exec rt
          request.edit.op = .ok index ∧
        w' = { (w.updateIndexesState rt env).settle o index with vectorsCount := gauge } ∧
        status = .ok := by
  unfold processWriteRequest at h
  dsimp only at h
  split at h
  · cases h
    exact Or.inl ⟨rfl, fun h => (by cases h)⟩
  · next i hi =>
    split at h
    · cases h
      exact Or.inl ⟨rfl, fun h => (by cases h)⟩
    · right
      split at h
      · next hadd =>
        obtain ⟨called, hcall, hw'⟩ := bind_eq_ok.mp h
        obtain ⟨o, index, ho, hexec, rfl⟩ := call_eq_ok hcall
        cases hw'
        exact ⟨i, _, o, index, _, hi, ho, by rwa [WriteRequest.edit, if_pos hadd], rfl, rfl⟩
      · next hdelete =>
        obtain ⟨called, hcall, hw'⟩ := bind_eq_ok.mp h
        obtain ⟨o, index, ho, hexec, rfl⟩ := call_eq_ok hcall
        cases hw'
        exact ⟨i, i, o, index, _, hi, ho, by rwa [WriteRequest.edit, if_neg hdelete], rfl, rfl⟩

/-- After `k` events, the documents of every index object are among the accepted ones of its
index. -/
structure Traceable (rt : Runtime B Text Vec Dist) (k : Nat) (accepted : List (String × Text))
    (w : Writer B) : Prop where
  linked : w.Linked
  counts : w.Counts
  accounted : ∃ ran, Accounted w ran
  objects : ∀ o, w.objects.Alloc o →
    Sourced rt (fun x => ((w.objects.get o).indexId, x) ∈ accepted) k (w.objects.get o).index.rest

namespace Traceable

variable {rt : Runtime B Text Vec Dist} {k : Nat} {accepted accepted' : List (String × Text)}
  {w w' : Writer B}

theorem create (rt : Runtime B Text Vec Dist) (k : Nat) (accepted : List (String × Text))
    (indexesConfig : AList fun _ : String => IndexConfig) :
    Traceable rt k accepted (Writer.create rt indexesConfig) where
  linked i s o ho := by cases ho
  counts o ho := absurd ho (Nat.not_lt_zero o)
  accounted := ⟨[], .create rt indexesConfig⟩
  objects o ho := absurd ho (Nat.not_lt_zero o)

theorem mono (h : Traceable rt k accepted w) {k' : Nat} (hle : k ≤ k')
    (hgrow : ∀ e ∈ accepted, e ∈ accepted') : Traceable rt k' accepted' w :=
  ⟨h.linked, h.counts, h.accounted, fun o ho => (h.objects o ho).mono (fun _ => hgrow _) hle⟩

theorem table (h : Traceable rt k accepted w) {env : Env Time} (hstep : TableStep rt env w w') :
    Traceable rt k accepted w' where
  linked := h.linked.step hstep
  counts := h.counts.step hstep
  accounted := by
    obtain ⟨ran, haccounted⟩ := h.accounted
    exact ⟨ran, haccounted.table hstep⟩
  objects := hstep.forall_shards
    (Q := fun shard => Sourced rt (fun x => (shard.indexId, x) ∈ accepted) k shard.index.rest)
    (fun config i s => .create rt _ k config w.draws) h.objects

theorem updateIndexesState (h : Traceable rt k accepted w) (env : Env Time) :
    Traceable rt k accepted (w.updateIndexesState rt env) :=
  (updateIndexesState_invariant (P := Traceable rt k accepted)
    (fun _ _ _ hu hstep => hu.table hstep) h.linked h).2

/-- A call that puts nothing but accepted documents. -/
theorem settle (h : Traceable rt k accepted w) {o : Nat} (ho : w.objects.Alloc o)
    {index : Index B Text} {e : Edit Text Vec}
    (hexec : ({ (w.objects.get o).index with draws := w.draws } : Index B Text).exec rt e.op =
      .ok index)
    (hone : (e.op.changes : List (Change B Text Vec)).length = 1)
    (hwithin : ∀ c ∈ (e.op.changes : List (Change B Text Vec)),
      c.Within fun x => ((w.objects.get o).indexId, x) ∈ accepted) :
    Traceable rt (k + 1) accepted (w.settle o index) where
  linked := h.linked.settle o index
  counts o' ho' := by
    have hle : w.draws ≤ index.draws := draws_le_of_runs (Index.exec_runs hexec)
    rw [settle_get]
    split
    · exact Nat.le_refl _
    · exact (h.counts o' ho').trans hle
  accounted := by
    obtain ⟨ran, haccounted⟩ := h.accounted
    exact ⟨ran, haccounted.settle ho (calls_prefix_of_runs (Index.exec_runs hexec))⟩
  objects o' ho' := by
    rw [settle_get]
    split
    · have hend := (h.objects o ho).of_runs hwithin (exec_runs (h.counts o ho) hexec)
      rwa [hone] at hend
    · exact (h.objects o' ho').mono (fun _ hx => hx) (Nat.le_succ k)

theorem gauge (h : Traceable rt k accepted w) (gauge : AList fun _ : String × String => Nat) :
    Traceable rt k accepted { w with vectorsCount := gauge } where
  linked := h.linked
  counts := h.counts
  accounted := by
    obtain ⟨ran, haccounted⟩ := h.accounted
    exact ⟨ran, haccounted.order, haccounted.queued, haccounted.ran⟩
  objects := h.objects

/-- The first task of the queue is taken. -/
theorem take (h : Traceable rt k accepted w) {task : Task} {tasks : List Task}
    (hnext : w.callbackRunner = task :: tasks) :
    Traceable rt k accepted { w with callbackRunner := tasks } where
  linked := h.linked
  counts := h.counts
  accounted := by
    obtain ⟨ran, haccounted⟩ := h.accounted
    exact ⟨_, haccounted.delivered hnext⟩
  objects := h.objects

end Traceable

end Writer

end Vecodex
