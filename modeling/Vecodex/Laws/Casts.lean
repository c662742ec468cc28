import Vecodex.Laws.Codec
import Vecodex.Laws.Visited

/-!
# Segments from files in merges

A merge joins two segments only when they are instances of the same template, and ends the process
otherwise. The segments an index creates are instances of its own base type. A segment that is
read from a file is an instance of the type its tag stands for, and one tag stands for both HNSW
types: what `IndexHNSWFlat` wrote comes back as `IndexHNSW`.

So an index of type `faissFlat` may push segments from files (`deserialized_segments_mergeable`),
and the first merge of a pushed and a sealed segment ends an index of type `faissHNSWFlat`
(`pushed_hnsw_fails_cast`).
-/

namespace Vecodex

open Lib
open Relation (ReflTransGen)

variable {B ID Vec Dist : Type} [DecidableEq ID]

/-! ## Segments of one kind -/

/-- All segments are of the kind. -/
def Uniform (kind : BaseKind) (w : Work B ID) : Prop := ∀ p, (w.index.seg p).index.kind = kind

namespace Uniform

variable {rt : Runtime B ID Vec Dist} {kind : BaseKind} {w w' : Work B ID}

omit [DecidableEq ID] in
theorem create (rt : Runtime B ID Vec Dist) (config : IndexConfig) (callback : Bool) (draws : Nat) :
    Uniform config.kind (Index.create rt config callback draws : Index B ID).rest := by
  intro p
  show ((Index.create rt config callback draws : Index B ID).seg p).index.kind = config.kind
  rw [Index.create_seg]
  rfl

theorem mergeStep (h : Uniform kind w) (hstep : MergeStep rt w w') :
    Uniform kind w' ∧ w'.index.config = w.index.config := by
  cases hstep with
  | join j reported left right kinds =>
    refine ⟨fun p => ?_, rfl⟩
    show ((w.index.join rt w.level j _ _).seg p).index.kind = kind
    rw [Index.join_seg]
    split
    · exact (FaissIndex.addBatch_kind rt _ _).trans (h _)
    · exact h p
  | finish =>
    obtain ⟨segments, trace, calls, heq, -, -⟩ := w.index.finishPass_eq w.erased w.inserted
    rw [heq]
    exact ⟨h, rfl⟩
  | compact idle => exact ⟨h, rfl⟩

theorem mergeSteps (h : Uniform kind w) (hsteps : ReflTransGen (MergeStep rt) w w') :
    Uniform kind w' := by
  induction hsteps with
  | refl => exact h
  | tail _ hstep ih => exact (ih.mergeStep hstep).1

/-- The segments an index seals are of the kind of its configuration. -/
theorem step (h : Uniform kind w) (hconfig : w.index.config.kind = kind)
    {changes : List (Change B ID Vec)} (hstep : Step rt changes w w')
    (hpush : ∀ segment, .push segment ∈ changes → segment.index.kind = kind) :
    Uniform kind w' ∧ w'.index.config.kind = kind := by
  cases hstep with
  | append _ rows =>
    refine ⟨fun p => ?_, hconfig⟩
    show ((w.index.appendLast rt rows).seg p).index.kind = kind
    rw [Index.appendLast_seg]
    split
    · exact (FaissIndex.addBatch_kind rt _ rows).trans (h p)
    · exact h p
  | @sealLast _ idx idle full stored =>
    refine ⟨fun p => ?_, ?_⟩
    · show ((idx.openNext rt).seg p).index.kind = kind
      rw [Index.openNext_seg stored]
      split
      · exact hconfig
      · exact h p
    · obtain ⟨levels, -, rfl⟩ := Index.storageAdd_eq_ok stored
      exact hconfig
  | report =>
    obtain ⟨calls, hcalls⟩ := w.index.notify_eq [] w.fresh
    rw [hcalls]
    exact ⟨h, hconfig⟩
  | merge hmerge =>
    obtain ⟨h', hsame⟩ := h.mergeStep hmerge
    exact ⟨h', hsame ▸ hconfig⟩
  | elsewhere _ n => exact ⟨h, hconfig⟩
  | erase _ ids =>
    refine ⟨fun p => ?_, hconfig⟩
    show ((w.index.erase ids).seg p).index.kind = kind
    rw [Index.erase_seg]
    split
    · exact (FaissIndex.eraseBatch_kind _ ids).trans (h p)
    · exact h p
  | push _ wf idle stored =>
    have hseg := Index.pushSegment_seg stored
    obtain ⟨levels, -, rfl⟩ := Index.pushSegment_eq_ok stored
    refine ⟨fun p => ?_, hconfig⟩
    rw [hseg]
    split
    · exact hpush _ List.mem_cons_self
    · exact h p

theorem of_runs (h : Uniform kind w) (hconfig : w.index.config.kind = kind)
    {changes : List (Change B ID Vec)} (hruns : Runs (Step rt) changes w w')
    (hpush : ∀ segment, .push segment ∈ changes → segment.index.kind = kind) :
    Uniform kind w' ∧ w'.index.config.kind = kind := by
  refine hruns.invariant (P := fun ks u => (∀ segment, .push segment ∈ ks →
    segment.index.kind = kind) → Uniform kind u ∧ u.index.config.kind = kind) ?_
    (fun _ => ⟨h, hconfig⟩) hpush
  intro ks ls u v hu hstep hpush
  obtain ⟨huniform, hconfig⟩ := hu fun s hs => hpush s (List.mem_append_left _ hs)
  exact huniform.step hconfig hstep fun s hs => hpush s (List.mem_append_right _ hs)

end Uniform

/-! ## Casts -/

namespace Index

theorem addLoop_ne_badCast (rt : Runtime B ID Vec Dist) (fuel : Nat) (idx : Index B ID)
    (inserted : List Nat) (rows : List (ID × Vec)) :
    idx.addLoop rt fuel inserted rows ≠ .error .badCast := by
  induction fuel generalizing idx inserted rows with
  | zero =>
    cases rows with
    | nil => exact fun herror => by cases herror
    | cons row rows => exact fun herror => by cases herror
  | succ fuel ih =>
    cases rows with
    | nil => exact fun herror => by cases herror
    | cons row rows =>
      rw [addLoop]
      dsimp only
      split
      · exact fun herror => by cases herror
      · split
        · intro herror
          rcases bind_eq_error.mp herror with hseal | ⟨next, -, hrest⟩
          · rcases bind_eq_error.mp hseal with hstore | ⟨st, -, hret⟩
            · cases storageAdd_eq_error hstore
            · cases hret
          · exact ih _ _ _ hrest
        · exact ih _ _ _

/-- A merge of segments of one kind fails no cast. -/
theorem mergeLoop_ne_badCast (rt : Runtime B ID Vec Dist) {kind : BaseKind} {fuel i : Nat}
    {s : MergeState B ID} (h : Uniform kind (s.work i)) :
    mergeLoop rt fuel i s ≠ .error .badCast := by
  induction fuel generalizing i s with
  | zero =>
    rw [mergeLoop]
    split <;> exact fun herror => by cases herror
  | succ fuel ih =>
    rw [mergeLoop]
    split
    · intro herror
      rcases bind_eq_error.mp herror with hjoin | ⟨t, ht, hrest⟩
      · refine foldlM_ne_error (P := fun u : MergeState B ID => Uniform kind (u.work i))
          (fun u v j _ hu hv => ?_) (fun u j _ hu herror => ?_) h hjoin
        · rcases mergePair_eq_ok hv with rfl | ⟨a, b, ha, hb, -, hkind, rfl⟩
          · exact hu
          · exact (hu.mergeStep (.join (u.work i) j rfl ha hb hkind)).1
        · obtain ⟨v, hv⟩ := mergePair_total rt (i := i) (j := j) (s := u) fun p q =>
            (hu p).trans (hu q).symm
          cases hv.symm.trans herror
      · refine ih ?_ hrest
        exact h.mergeSteps ((joinPairs_steps ht).tail (.finish (t.work i)))
    · exact fun herror => by cases herror

theorem exec_ne_badCast (rt : Runtime B ID Vec Dist) {kind : BaseKind} {idx : Index B ID}
    (h : Uniform kind idx.rest) (hconfig : idx.config.kind = kind) (op : Op B ID Vec) :
    idx.exec rt op ≠ .error .badCast := by
  intro herror
  cases op with
  | add rows =>
    rcases bind_eq_error.mp herror with hfill | ⟨filled, hfill, hmerge⟩
    · rcases bind_eq_error.mp hfill with hloop | ⟨r, -, hret⟩
      · exact addLoop_ne_badCast rt _ _ _ _ hloop
      · cases hret
    · have hfilled := (h.of_runs hconfig (fill_runs hfill) fun segment hmem => by
        obtain ⟨r, -, heq⟩ := List.mem_map.mp hmem
        cases heq).1
      split at hmerge
      · rcases bind_eq_error.mp hmerge with hloop | ⟨t, -, hret⟩
        · exact mergeLoop_ne_badCast rt hfilled hloop
        · cases hret
      · cases hmerge
  | erase ids => cases herror
  | push segment wf => cases pushSegment_eq_error herror
  | eraseSegment id => cases herror

end Index

/-! ## Histories with segments from files -/

/-- The histories of an index that pushes segments from files: each was written by an index of the
same configuration, in a process of its own, after a history of the same kind. -/
inductive FileHistory (files : Files B) (config : IndexConfig) : List (Op B Text Vec) → Prop
  | nil : FileHistory files config []
  | edit {ops : List (Op B Text Vec)} (h : FileHistory files config ops) (e : Edit Text Vec) :
    FileHistory files config (ops ++ [e.op])
  | push {Dist : Type} {ops ops' : List (Op B Text Vec)} (h : FileHistory files config ops)
      (h' : FileHistory files config ops') (rt : Runtime B Text Vec Dist) {callback : Bool}
      {draws : Nat} {st : Index B Text}
      (written : (Index.create rt config callback draws).run rt ops' = .ok st) (p : Nat)
      {segment : Segment B Text} {rest : Bytes}
      (read : deserealizeSegment files (serializeSegment rt files (st.seg p)) =
        .ok (some segment, rest)) (wf : segment.index.Wf) :
    FileHistory files config (ops ++ [.push segment wf])

/-- What a flat index wrote is read as a flat index. -/
theorem deserealizeSegment_flat {rt : Runtime B Text Vec Dist} {files : Files B}
    {s g : Segment B Text} {rest : Bytes} (hs : s.index.kind = .flat)
    (h : deserealizeSegment files (serializeSegment rt files s) = .ok (some g, rest)) :
    g.index.kind = .flat := by
  have htype := readWord_word s.index.getSegmentType_lt 0 (s.serialize rt files)
  have hzero : s.index.getSegmentType = 0 := by rw [FaissIndex.getSegmentType, hs]
  unfold deserealizeSegment serializeSegment at h
  rw [htype] at h
  dsimp only at h
  rw [if_pos hzero] at h
  obtain ⟨⟨index, bs⟩, hread, hret⟩ := bind_eq_ok.mp h
  cases hret
  exact FaissIndex.kind_of_ofFile hread

theorem mem_changes_push {ops : List (Op B ID Vec)} {segment : Segment B ID}
    (h : .push segment ∈ ops.flatMap Op.changes) : ∃ wf, .push segment wf ∈ ops := by
  obtain ⟨op, hop, hmem⟩ := List.mem_flatMap.mp h
  cases op with
  | add rows =>
    obtain ⟨r, -, heq⟩ := List.mem_map.mp hmem
    cases heq
  | erase ids => cases List.mem_singleton.mp hmem
  | push segment' wf =>
    cases List.mem_singleton.mp hmem
    exact ⟨wf, hop⟩
  | eraseSegment id => cases hmem

/-- All segments a flat index pushes from files are flat. -/
theorem FileHistory.pushed_flat {files : Files B} {config : IndexConfig}
    (hflat : config.kind = .flat) {ops : List (Op B Text Vec)} (h : FileHistory files config ops)
    {segment : Segment B Text} {wf : segment.index.Wf} (hmem : .push segment wf ∈ ops) :
    segment.index.kind = .flat := by
  induction h generalizing segment with
  | nil => cases hmem
  | edit _ e ih =>
    rcases List.mem_append.mp hmem with hmem | hmem
    · exact ih hmem
    · cases e <;> cases List.mem_singleton.mp hmem
  | @push Dist ops ops' _ _ rt callback draws st written p g rest read _ ih ih' =>
    rcases List.mem_append.mp hmem with hmem | hmem
    · exact ih hmem
    · cases List.mem_singleton.mp hmem
      have huniform := ((Uniform.create rt config callback draws).of_runs rfl
        (Index.run_runs written) fun s hs => by
          obtain ⟨_, hs⟩ := mem_changes_push hs
          exact (ih' hs).trans hflat.symm).1
      exact deserealizeSegment_flat ((huniform p).trans hflat) read

/-- In every history of an index that pushes segments from files only if it is flat, no merge
fails a cast. -/
theorem deserialized_segments_mergeable (rt : Runtime B Text Vec Dist) (files : Files B)
    (config : IndexConfig) (callback : Bool) (draws : Nat) (ops : List (Op B Text Vec))
    (hfiles : FileHistory files config ops)
    (hflat : ∀ segment wf, .push segment wf ∈ ops → config.kind = .flat) :
    (Index.create rt config callback draws).run rt ops ≠ .error .badCast := by
  have hkind : ∀ segment wf, .push segment wf ∈ ops → segment.index.kind = config.kind := by
    intro segment wf hmem
    have hconfig := hflat segment wf hmem
    exact (hfiles.pushed_flat hconfig hmem).trans hconfig.symm
  refine foldlM_ne_error (P := fun u : Index B Text => Uniform config.kind u.rest ∧
    u.config.kind = config.kind) (fun u v op hop hu hv => ?_)
    (fun u op _ hu => Index.exec_ne_badCast rt hu.1 hu.2 op)
    ⟨Uniform.create rt config callback draws, rfl⟩
  refine hu.1.of_runs hu.2 (Index.exec_runs hv) fun segment hmem => ?_
  rw [← List.flatMap_singleton (f := Op.changes)] at hmem
  obtain ⟨wf, hmem⟩ := mem_changes_push hmem
  rw [List.mem_singleton] at hmem
  exact hkind segment wf (hmem ▸ hop)

/-! ## An index of points on a line -/

/-- Segments of one vector, with merging, over a base index of the given type. -/
def typedConfig (kind : BaseKind) : IndexConfig := { unitConfig true with kind := kind }

/-- What is read from the file of a segment with one vector, 10, under the id `a`. -/
def oneVector (kind : BaseKind) : Segment (List Nat) Text where
  segId := 0
  index := (FaissIndex.create (lineRuntime Text id) kind).addBatch (lineRuntime Text id)
    [(⟨[97], by decide⟩, 10)]

theorem oneVector_wf (kind : BaseKind) : (oneVector kind).index.Wf :=
  (FaissIndex.wf_create _ kind).addBatch _ _

/-- The segment was written by an index that added the vector. -/
theorem fileHistory_oneVector (kind read : BaseKind)
    (hread : deserealizeSegment lineFiles (serializeSegment (lineRuntime Text id) lineFiles
      (oneVector kind)) = .ok (some (oneVector read), [])) :
    FileHistory lineFiles (typedConfig kind)
      ([.push (oneVector read) (oneVector_wf read)] : List (Op (List Nat) Text Nat)) := by
  obtain ⟨st, hrun, hseg⟩ :
      ∃ st, (Index.create (lineRuntime Text id) (typedConfig kind) true 0).run
          (lineRuntime Text id) [.add [(⟨[97], by decide⟩, 10)]] = .ok st ∧
        st.seg 0 = oneVector kind := by
    cases kind <;> exact ⟨_, rfl, rfl⟩
  exact .push .nil (.edit .nil (.add _)) (lineRuntime Text id) hrun 0 (hseg.symm ▸ hread) _

/-- A segment from a file and a sealed one fail the cast of the merge in an index of type
`faissHNSWFlat`. -/
theorem pushed_hnsw_fails_cast :
    ∃ ops, FileHistory lineFiles (typedConfig .hnswFlat) ops ∧
      (Index.create (lineRuntime Text id) (typedConfig .hnswFlat) false 0).run
        (lineRuntime Text id) ops = .error .badCast :=
  ⟨_, .edit (fileHistory_oneVector .hnswFlat .hnsw rfl) (.add [(⟨[98], by decide⟩, 20)]),
    by decide +kernel⟩

/-- In a flat index the same two segments are merged. -/
theorem deserialized_segments_mergeable_flat :
    (Index.create (lineRuntime Text id) (typedConfig .flat) false 0).run (lineRuntime Text id)
      [.push (oneVector .flat) (oneVector_wf .flat), .add [(⟨[98], by decide⟩, 20)]] ≠
        .error .badCast :=
  deserialized_segments_mergeable (lineRuntime Text id) lineFiles (typedConfig .flat) false 0 _
    (.edit (fileHistory_oneVector .flat .flat rfl) (.add [(⟨[98], by decide⟩, 20)]))
    (fun _ _ _ => rfl)

end Vecodex
