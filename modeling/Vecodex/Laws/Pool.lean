import Vecodex.Laws.Documents

/-!
# An index without merging

`Pool` is what an index is for when its merges are left out: sealed wrappers that only an erase
touches again, and an open one. An index refines it (`Pooled`) as long as its merges join only
segments that have no live id in common and no live position out of an erase's reach
(`ApartJoins`). Then the unshadowed segments hold together the rows of the unshadowed wrappers,
however they are distributed, and a shadowed wrapper is still a segment of its own.
-/

namespace Vecodex

open Lib

variable {B ID Vec Dist : Type} [DecidableEq ID]

/-- The same runtime with other values of `rand()`. -/
abbrev Runtime.withRand (rt : Runtime B ID Vec Dist) (rand : Nat → Nat) : Runtime B ID Vec Dist :=
  { rt with rand := rand }

/-- The sealed wrappers and the open one. -/
structure Pool (B ID : Type) where
  closed : List (FaissIndex B ID)
  last : FaissIndex B ID

namespace Pool

def create (rt : Runtime B ID Vec Dist) (kind : BaseKind) : Pool B ID :=
  ⟨[], FaissIndex.create rt kind⟩

/-- The open wrapper is sealed when it has reached the threshold. -/
def settle (rt : Runtime B ID Vec Dist) (config : IndexConfig) (pool : Pool B ID) : Pool B ID :=
  if pool.last.size = config.segmentThreshold then
    ⟨pool.closed ++ [pool.last], FaissIndex.create rt config.kind⟩
  else pool

/-- Rows go to the open wrapper in batches, in at most `fuel` rounds. -/
def add (rt : Runtime B ID Vec Dist) (config : IndexConfig) :
    Nat → Pool B ID → List (ID × Vec) → Pool B ID
  | 0, pool, _ => pool
  | _ + 1, pool, [] => pool
  | fuel + 1, pool, row :: rows =>
    let batch := min (row :: rows).length (sizeT (config.segmentThreshold - pool.last.size))
    let filled : Pool B ID :=
      { pool with last := pool.last.addBatch rt ((row :: rows).take batch) }
    add rt config fuel (filled.settle rt config) ((row :: rows).drop batch)

def erase (pool : Pool B ID) (ids : List ID) : Pool B ID :=
  ⟨pool.closed.map fun f => f.eraseBatch ids, pool.last.eraseBatch ids⟩

def apply (rt : Runtime B ID Vec Dist) (config : IndexConfig) (pool : Pool B ID) :
    Edit ID Vec → Pool B ID
  | .add rows => pool.add rt config rows.length rows
  | .erase ids => pool.erase ids

/-- The pool after a history. -/
def run (rt : Runtime B ID Vec Dist) (config : IndexConfig) (edits : List (Edit ID Vec)) :
    Pool B ID :=
  edits.foldl (apply rt config) (create rt config.kind)

/-- The pool depends on the values of `rand()` nowhere, and not on whether merging is enabled. -/
theorem run_congr (rt : Runtime B ID Vec Dist) (rand : Nat → Nat) (config config' : IndexConfig)
    (hthreshold : config'.segmentThreshold = config.segmentThreshold)
    (hkind : config'.kind = config.kind) (edits : List (Edit ID Vec)) :
    (run (rt.withRand rand) config' edits : Pool B ID) = run rt config edits := by
  have hadd : ∀ fuel (pool : Pool B ID) rows,
      pool.add (rt.withRand rand) config' fuel rows = pool.add rt config fuel rows := by
    intro fuel
    induction fuel with
    | zero =>
      intro pool rows
      rfl
    | succ fuel ih =>
      intro pool rows
      cases rows with
      | nil => rfl
      | cons row rows =>
        unfold add settle
        rw [ih, hthreshold, hkind]
        rfl
  have happly : (apply (rt.withRand rand) config' : Pool B ID → Edit ID Vec → Pool B ID) =
      apply rt config := by
    funext pool e
    cases e with
    | add rows => exact hadd _ pool rows
    | erase ids => rfl
  unfold run create
  rw [happly, hkind]
  rfl

/-! ## What a pool stores -/

/-- The wrapper is in order and holds rows of `rows` only. -/
structure Stores {rt : Runtime B ID Vec Dist} (base : StoringBase rt.faiss)
    (rows : List (ID × Vec)) (f : FaissIndex B ID) : Prop where
  wf : f.Wf
  aligned : f.Aligned base
  held : ∀ x v, f.Holds base x v → (x, v) ∈ rows

/-- All wrappers. -/
def all (pool : Pool B ID) : List (FaissIndex B ID) := pool.closed ++ [pool.last]

omit [DecidableEq ID] in
theorem mem_all {pool : Pool B ID} {f : FaissIndex B ID} :
    f ∈ pool.all ↔ f ∈ pool.closed ∨ f = pool.last := by
  simp [all]

section Stores

variable {rt : Runtime B ID Vec Dist} {base : StoringBase rt.faiss} {rows : List (ID × Vec)}
  {pool : Pool B ID}

theorem stores_create (base : StoringBase rt.faiss) (rows : List (ID × Vec)) (kind : BaseKind) :
    Stores base rows (FaissIndex.create rt kind : FaissIndex B ID) where
  wf := FaissIndex.wf_create rt kind
  aligned := FaissIndex.aligned_create base kind
  held x v h := absurd h (FaissIndex.not_holds_create base kind x v)

theorem Stores.mono {f : FaissIndex B ID} (h : Stores base rows f) (more : List (ID × Vec)) :
    Stores base (rows ++ more) f :=
  ⟨h.wf, h.aligned, fun x v hx => List.mem_append_left _ (h.held x v hx)⟩

theorem Stores.addBatch {f : FaissIndex B ID} (h : Stores base rows f) (batch : List (ID × Vec)) :
    Stores base (rows ++ batch) (f.addBatch rt batch) where
  wf := h.wf.addBatch rt batch
  aligned := h.aligned.addBatch base batch
  held x v hx := by
    rcases (FaissIndex.addBatch_holds base h.wf h.aligned batch x v).mp hx with hx | hx
    · exact List.mem_append_left _ (h.held x v hx)
    · exact List.mem_append_right _ hx

theorem Stores.eraseBatch {f : FaissIndex B ID} (h : Stores base rows f) (ids : List ID) :
    Stores base rows (f.eraseBatch ids) where
  wf := h.wf.eraseBatch ids
  aligned := h.aligned.eraseBatch base ids
  held x v hx := h.held x v (FaissIndex.Holds.of_eraseBatch base h.wf hx)

theorem stores_settle {config : IndexConfig} (h : ∀ f ∈ pool.all, Stores base rows f) :
    ∀ f ∈ (pool.settle rt config).all, Stores base rows f := by
  intro f hf
  unfold settle at hf
  split at hf
  · rcases mem_all.mp hf with hf | rfl
    · exact h f hf
    · exact stores_create base rows _
  · exact h f hf

theorem stores_add {config : IndexConfig} {fuel : Nat} {more : List (ID × Vec)}
    (h : ∀ f ∈ pool.all, Stores base rows f) :
    ∀ f ∈ (pool.add rt config fuel more).all, Stores base (rows ++ more) f := by
  induction fuel generalizing pool rows more with
  | zero => exact fun f hf => (h f hf).mono more
  | succ fuel ih =>
    cases more with
    | nil => exact fun f hf => (h f hf).mono []
    | cons row more =>
      intro f hf
      have hsplit := List.take_append_drop
        (min (row :: more).length (sizeT (config.segmentThreshold - pool.last.size)))
        (row :: more)
      rw [← hsplit, ← List.append_assoc]
      refine ih (stores_settle fun g hg => ?_) f hf
      rcases mem_all.mp hg with hg | rfl
      · exact (h g (mem_all.mpr (Or.inl hg))).mono _
      · exact (h _ (mem_all.mpr (Or.inr rfl))).addBatch _

theorem stores_erase (h : ∀ f ∈ pool.all, Stores base rows f) (ids : List ID) :
    ∀ f ∈ (pool.erase ids).all, Stores base rows f := by
  intro f hf
  rcases mem_all.mp hf with hf | rfl
  · obtain ⟨g, hg, rfl⟩ := List.mem_map.mp hf
    exact (h g (mem_all.mpr (Or.inl hg))).eraseBatch ids
  · exact (h _ (mem_all.mpr (Or.inr rfl))).eraseBatch ids

/-- A pool holds only rows that were added to it. -/
theorem stores_apply (config : IndexConfig) (h : ∀ f ∈ pool.all, Stores base rows f)
    (e : Edit ID Vec) :
    ∀ f ∈ (pool.apply rt config e).all, Stores base (rows ++ addedRows [e]) f := by
  cases e with
  | add more =>
    rw [show addedRows [Edit.add more] = more from List.append_nil more]
    exact stores_add h
  | erase ids => exact fun f hf => (stores_erase h ids f hf).mono []

end Stores

/-- An unshadowed sealed wrapper holds the row. -/
def Row {rt : Runtime B ID Vec Dist} (base : StoringBase rt.faiss) (pool : Pool B ID) (x : ID)
    (v : Vec) : Prop :=
  ∃ f ∈ pool.closed, f.Unshadowed ∧ f.Holds base x v

end Pool

/-! ## Joins that do not show -/

/-- A join of segments without a common live id and without shadowed positions. -/
def MergeEvent.Apart : MergeEvent B ID → Prop
  | .joined survivor absorbed => survivor.index.Unshadowed ∧ absorbed.index.Unshadowed ∧
      survivor.index.Apart absorbed.index
  | .dropped _ _ _ => True

instance : DecidablePred (MergeEvent.Apart : MergeEvent B ID → Prop)
  | .joined survivor absorbed => inferInstanceAs (Decidable (survivor.index.Unshadowed ∧
      absorbed.index.Unshadowed ∧ survivor.index.Apart absorbed.index))
  | .dropped _ _ _ => .isTrue trivial

/-- All joins are of this kind. -/
def ApartJoins (trace : List (MergeEvent B ID)) : Prop := ∀ e ∈ trace, e.Apart

instance (trace : List (MergeEvent B ID)) : Decidable (ApartJoins trace) :=
  inferInstanceAs (Decidable (∀ e ∈ trace, e.Apart))

theorem ApartJoins.mono {trace trace' : List (MergeEvent B ID)} (h : ApartJoins trace')
    (hpre : trace <+: trace') : ApartJoins trace :=
  fun e he => h e (hpre.subset he)

/-! ## The refinement -/

/-- The index shows what the pool holds. -/
structure Pooled {rt : Runtime B ID Vec Dist} (base : StoringBase rt.faiss) (config : IndexConfig)
    (pool : Pool B ID) (idx : Index B ID) : Prop where
  config : idx.config = config
  last : (idx.seg idx.last).index = pool.last
  rows : ∀ p ∈ idx.segments, (idx.seg p).index.Unshadowed →
    ∀ x v, (idx.seg p).index.Holds base x v → pool.Row base x v
  shadowed : ∀ p ∈ idx.segments, ¬ (idx.seg p).index.Unshadowed → (idx.seg p).index ∈ pool.closed
  find_row : ∀ x v, pool.Row base x v →
    ∃ p ∈ idx.current, (idx.seg p).index.Unshadowed ∧ (idx.seg p).index.Holds base x v
  find_shadowed : ∀ f ∈ pool.closed, ¬ f.Unshadowed → ∃ p ∈ idx.current, (idx.seg p).index = f

namespace Pooled

variable {rt : Runtime B ID Vec Dist} {base : StoringBase rt.faiss} {config : IndexConfig}
  {pool : Pool B ID} {w : Work B ID}

theorem create (base : StoringBase rt.faiss) (config : IndexConfig) (callback : Bool)
    (draws : Nat) :
    Pooled base config (Pool.create rt config.kind)
      (Index.create rt config callback draws : Index B ID) where
  config := rfl
  last := by
    rw [Index.create_seg]
    rfl
  rows p hp := by cases hp
  shadowed p hp := by cases hp
  find_row x v h := by
    obtain ⟨f, hf, -⟩ := h
    cases hf
  find_shadowed f hf := by cases hf

/-- An index with the same segments, which shows a search no others. -/
theorem transfer {idx idx' : Index B ID} (h : Pooled base config pool idx)
    (hconfig : idx'.config = idx.config) (hlast : idx'.last = idx.last)
    (hseg : ∀ p, idx'.seg p = idx.seg p) (hsegments : ∀ p ∈ idx'.segments, p ∈ idx.segments)
    (hcurrent : idx'.current = idx.current) : Pooled base config pool idx' := by
  obtain ⟨hc, hl, hr, hs, hfr, hfs⟩ := h
  simp only [← hseg] at hl hr hs hfr hfs
  exact ⟨hconfig.trans hc, hlast ▸ hl, fun p hp => hr p (hsegments p hp),
    fun p hp => hs p (hsegments p hp), hcurrent ▸ hfr, hcurrent ▸ hfs⟩

/-- Rows go to the open wrapper on both sides. -/
theorem append (h : Pooled base config pool w.index) (hshape : Shape w) (rows : List (ID × Vec)) :
    Pooled base config { pool with last := pool.last.addBatch rt rows }
      (w.index.appendLast rt rows) := by
  have hseg : ∀ p, p ≠ w.index.last → (w.index.appendLast rt rows).seg p = w.index.seg p := by
    intro p hp
    rw [Index.appendLast_seg, if_neg hp]
  have hsegments : ∀ p ∈ w.index.segments, p ≠ w.index.last := fun p hp =>
    ne_of_mem_of_not_mem hp hshape.last_segments
  have hcurrent : ∀ p ∈ w.index.current, p ≠ w.index.last := fun p hp =>
    ne_of_mem_of_not_mem hp hshape.last_current
  constructor
  · exact h.config
  · show ((w.index.appendLast rt rows).seg w.index.last).index = _
    rw [Index.appendLast_seg, if_pos rfl, ← h.last]
    rfl
  · intro p hp
    rw [hseg p (hsegments p hp)]
    exact h.rows p hp
  · intro p hp
    rw [hseg p (hsegments p hp)]
    exact h.shadowed p hp
  · intro x v hrow
    obtain ⟨p, hp, hheld⟩ := h.find_row x v hrow
    refine ⟨p, hp, ?_⟩
    rw [hseg p (hcurrent p hp)]
    exact hheld
  · intro f hf hshadowed
    obtain ⟨p, hp, hheld⟩ := h.find_shadowed f hf hshadowed
    refine ⟨p, hp, ?_⟩
    rw [hseg p (hcurrent p hp)]
    exact hheld

/-- The open wrapper is sealed on both sides. -/
theorem sealLast (h : Pooled base config pool w.index) (hshape : Shape w) {idx : Index B ID}
    (stored : w.index.storageAdd w.index.last = .ok idx) :
    Pooled base config ⟨pool.closed ++ [pool.last], FaissIndex.create rt config.kind⟩
      (idx.openNext rt) := by
  have hseg : ∀ p, w.index.heap.Alloc p → (idx.openNext rt).seg p = w.index.seg p := by
    intro p hp
    rw [Index.openNext_seg stored, if_neg (Nat.ne_of_lt hp)]
  have hrow : ∀ x v, Pool.Row base ⟨pool.closed ++ [pool.last], FaissIndex.create rt config.kind⟩
      x v ↔ pool.Row base x v ∨ pool.last.Unshadowed ∧ pool.last.Holds base x v := by
    intro x v
    simp only [Pool.Row, List.mem_append, List.mem_singleton, or_and_right, exists_or,
      exists_eq_left]
  have hsegments : ∀ p, p ∈ (idx.openNext rt).segments ↔
      p ∈ w.index.segments ∨ p = w.index.last := by
    intro p
    obtain ⟨levels, -, rfl⟩ := Index.storageAdd_eq_ok stored
    show p ∈ w.index.segments ++ [w.index.last] ↔ _
    rw [List.mem_append, List.mem_singleton]
  have hlast : (idx.openNext rt).seg w.index.last = w.index.seg w.index.last :=
    hseg _ hshape.last_alloc
  constructor
  · obtain ⟨levels, -, rfl⟩ := Index.storageAdd_eq_ok stored
    exact h.config
  · rw [Index.openNext_last stored, Index.openNext_seg stored, if_pos rfl, h.config]
    rfl
  · intro p hp hu x v hx
    rw [hrow]
    rcases (hsegments p).mp hp with hp | rfl
    · rw [hseg p (hshape.segments_alloc p hp)] at hu hx
      exact Or.inl (h.rows p hp hu x v hx)
    · rw [hlast, h.last] at hu hx
      exact Or.inr ⟨hu, hx⟩
  · intro p hp hu
    rcases (hsegments p).mp hp with hp | rfl
    · rw [hseg p (hshape.segments_alloc p hp)] at hu ⊢
      exact List.mem_append_left _ (h.shadowed p hp hu)
    · rw [hlast, h.last]
      exact List.mem_append_right _ List.mem_cons_self
  · intro x v hx
    rcases (hrow x v).mp hx with hx | hx
    · obtain ⟨p, hp, hheld⟩ := h.find_row x v hx
      refine ⟨p, (Index.mem_openNext_current stored).mpr (Or.inl hp), ?_⟩
      rwa [hseg p (hshape.current_alloc p hp)]
    · refine ⟨w.index.last, (Index.mem_openNext_current stored).mpr (Or.inr rfl), ?_⟩
      rwa [hlast, h.last]
  · intro f hf hu
    rcases List.mem_append.mp hf with hf | hf
    · obtain ⟨p, hp, hheld⟩ := h.find_shadowed f hf hu
      refine ⟨p, (Index.mem_openNext_current stored).mpr (Or.inl hp), ?_⟩
      rwa [hseg p (hshape.current_alloc p hp)]
    · refine ⟨w.index.last, (Index.mem_openNext_current stored).mpr (Or.inr rfl), ?_⟩
      rw [hlast, h.last, List.mem_singleton.mp hf]

/-- An erase reaches the same rows on both sides, and leaves the same shadowed wrappers. -/
theorem erase (h : Pooled base config pool w.index) (hshape : Shape w) (hvis : Visited w)
    (hpool : ∀ f ∈ pool.closed, f.Wf) (ids : List ID) :
    Pooled base config (pool.erase ids) (w.index.erase ids) := by
  have hseg : ∀ p ∈ w.index.visited,
      ((w.index.erase ids).seg p).index = (w.index.seg p).index.eraseBatch ids := by
    intro p hp
    rw [Index.erase_seg, if_pos hp]
    rfl
  have hlisted : ∀ p ∈ w.index.segments, p ∈ w.index.visited := fun p hp =>
    Index.mem_visited.mpr (Or.inl hp)
  have hrow : ∀ x v, (pool.erase ids).Row base x v ↔ pool.Row base x v ∧ x ∉ ids := by
    intro x v
    constructor
    · rintro ⟨f, hf, hu, hx⟩
      obtain ⟨g, hg, rfl⟩ := List.mem_map.mp hf
      rw [FaissIndex.eraseBatch_unshadowed_iff (hpool g hg)] at hu
      obtain ⟨hx, hid⟩ := (FaissIndex.eraseBatch_holds base (hpool g hg) ids (hu x) v).mp hx
      exact ⟨⟨g, hg, hu, hx⟩, hid⟩
    · rintro ⟨⟨g, hg, hu, hx⟩, hid⟩
      exact ⟨_, List.mem_map_of_mem hg, hu.eraseBatch (hpool g hg) ids,
        (FaissIndex.eraseBatch_holds base (hpool g hg) ids (hu x) v).mpr ⟨hx, hid⟩⟩
  constructor
  · exact h.config
  · show ((w.index.erase ids).seg w.index.last).index = pool.last.eraseBatch ids
    rw [← h.last]
    exact hseg _ (Index.mem_visited.mpr (Or.inr rfl))
  · intro p hp hu x v hx
    rw [hseg p (hlisted p hp)] at hu hx
    rw [FaissIndex.eraseBatch_unshadowed_iff (hshape.wf p)] at hu
    obtain ⟨hx, hid⟩ := (FaissIndex.eraseBatch_holds base (hshape.wf p) ids (hu x) v).mp hx
    exact (hrow x v).mpr ⟨h.rows p hp hu x v hx, hid⟩
  · intro p hp hu
    rw [hseg p (hlisted p hp)] at hu ⊢
    rw [FaissIndex.eraseBatch_unshadowed_iff (hshape.wf p)] at hu
    exact List.mem_map_of_mem (h.shadowed p hp hu)
  · intro x v hx
    obtain ⟨hx, hid⟩ := (hrow x v).mp hx
    obtain ⟨p, hp, hu, hheld⟩ := h.find_row x v hx
    refine ⟨p, hp, ?_⟩
    rw [hseg p (hlisted p (hvis p hp))]
    exact ⟨hu.eraseBatch (hshape.wf p) ids,
      (FaissIndex.eraseBatch_holds base (hshape.wf p) ids (hu x) v).mpr ⟨hheld, hid⟩⟩
  · intro f hf hu
    obtain ⟨g, hg, rfl⟩ := List.mem_map.mp hf
    rw [FaissIndex.eraseBatch_unshadowed_iff (hpool g hg)] at hu
    obtain ⟨p, hp, hheld⟩ := h.find_shadowed g hg hu
    refine ⟨p, hp, ?_⟩
    rw [hseg p (hlisted p (hvis p hp)), hheld]

/-- The survivor of a join holds the rows of both, and neither was shadowed. -/
theorem join (h : Pooled base config pool w.index) (hshape : Shape w) (hvis : Visited w)
    (halign : AlignedAll base w) {j a b : Nat}
    (left : w.index.levels.cell w.level j = some a)
    (right : w.index.levels.cell w.level (j + 1) = some b)
    (hapart : MergeEvent.Apart (.joined (w.index.seg a) (w.index.seg b))) :
    Pooled base config pool (w.index.join rt w.level j a b) := by
  obtain ⟨hua, hub, hab⟩ := hapart
  obtain ⟨-, -, ha, -, -⟩ := hshape.join_cells rt left right
  have hac := Index.mem_current_of_cell left
  have hbc := Index.mem_current_of_cell right
  have hseg : ∀ p, p ≠ a → (w.index.join rt w.level j a b).seg p = w.index.seg p := by
    intro p hp
    rw [Index.join_seg, if_neg hp]
  have hself : ((w.index.join rt w.level j a b).seg a).index =
      (w.index.seg a).index.addBatch rt ((w.index.seg b).index.survivors rt) := by
    rw [Index.join_seg, if_pos rfl]
  have hunshadowed : ((w.index.join rt w.level j a b).seg a).index.Unshadowed := by
    rw [hself]
    refine hua.addBatch (hshape.wf a) rt (hub.nodup_survivors rt) fun x hx hlive => ?_
    exact hab x hlive ((FaissIndex.mem_survivors_ids rt _ x).mp hx)
  have hholds : ∀ x v, ((w.index.join rt w.level j a b).seg a).index.Holds base x v ↔
      (w.index.seg a).index.Holds base x v ∨ (w.index.seg b).index.Holds base x v := by
    intro x v
    rw [halign.join_holds hshape, and_iff_right rfl]
  have hstay : ∀ p ∈ w.index.current, p ≠ b → p ∈ (w.index.join rt w.level j a b).current :=
    fun p hp hpb => (hshape.mem_join_current rt left right).mpr ⟨hp, hpb⟩
  constructor
  · exact h.config
  · show ((w.index.join rt w.level j a b).seg w.index.last).index = _
    rw [hseg _ (ne_of_mem_of_not_mem hac hshape.last_current).symm, h.last]
  · intro p hp hu x v hx
    by_cases hpa : p = a
    · subst hpa
      rcases (hholds x v).mp hx with hx | hx
      · exact h.rows p hp hua x v hx
      · exact h.rows b (hvis b hbc) hub x v hx
    · rw [hseg p hpa] at hu hx
      exact h.rows p hp hu x v hx
  · intro p hp hu
    by_cases hpa : p = a
    · exact absurd (hpa ▸ hunshadowed) hu
    · rw [hseg p hpa] at hu ⊢
      exact h.shadowed p hp hu
  · intro x v hx
    obtain ⟨p, hp, hu, hheld⟩ := h.find_row x v hx
    by_cases hpb : p = b
    · subst hpb
      exact ⟨a, ha, hunshadowed, (hholds x v).mpr (Or.inr hheld)⟩
    · by_cases hpa : p = a
      · subst hpa
        exact ⟨p, ha, hunshadowed, (hholds x v).mpr (Or.inl hheld)⟩
      · refine ⟨p, hstay p hp hpb, ?_⟩
        rw [hseg p hpa]
        exact ⟨hu, hheld⟩
  · intro f hf hu
    obtain ⟨p, hp, rfl⟩ := h.find_shadowed f hf hu
    have hpa : p ≠ a := fun heq => hu (heq ▸ hua)
    have hpb : p ≠ b := fun heq => hu (heq ▸ hub)
    exact ⟨p, hstay p hp hpb, congrArg Segment.index (hseg p hpa)⟩

/-- A merge does not show while its joins are apart. -/
theorem mergeStep (h : Pooled base config pool w.index) (hshape : Shape w) (hvis : Visited w)
    (halign : AlignedAll base w) {w' : Work B ID} (hstep : MergeStep rt w w')
    (hapart : ApartJoins w'.index.trace) : Pooled base config pool w'.index := by
  cases hstep with
  | join j reported left right kinds =>
    exact h.join hshape hvis halign left right
      (hapart _ (List.mem_append_right _ List.mem_cons_self))
  | finish =>
    obtain ⟨segments, trace, calls, heq, hsub, -⟩ := w.index.finishPass_eq w.erased w.inserted
    rw [heq]
    refine h.transfer rfl rfl (fun _ => rfl) (fun p hp => ?_) rfl
    rcases List.mem_append.mp (hsub.subset hp) with hp | hp
    · exact hp
    · exact hvis p (hshape.inserted_current p hp)
  | compact idle =>
    exact h.transfer rfl rfl (fun _ => rfl) (fun _ hp => hp) w.index.current_compactLevels

/-! ## The open wrapper included -/

/-- A visited segment shows rows of an unshadowed wrapper, or is a shadowed one itself. -/
theorem shows {idx : Index B ID} (h : Pooled base config pool idx) {p : Nat}
    (hp : p ∈ idx.visited) :
    ((idx.seg p).index.Unshadowed → ∀ x v, (idx.seg p).index.Holds base x v →
      ∃ f ∈ pool.all, f.Unshadowed ∧ f.Holds base x v) ∧
    (¬ (idx.seg p).index.Unshadowed → (idx.seg p).index ∈ pool.all) := by
  rcases Index.mem_visited.mp hp with hp | rfl
  · refine ⟨fun hu x v hx => ?_, fun hu => Pool.mem_all.mpr (Or.inl (h.shadowed p hp hu))⟩
    obtain ⟨f, hf, hheld⟩ := h.rows p hp hu x v hx
    exact ⟨f, Pool.mem_all.mpr (Or.inl hf), hheld⟩
  · rw [h.last]
    exact ⟨fun hu x v hx => ⟨_, Pool.mem_all.mpr (Or.inr rfl), hu, hx⟩,
      fun _ => Pool.mem_all.mpr (Or.inr rfl)⟩

/-- Rows of an unshadowed wrapper and shadowed wrappers are in visited segments. -/
theorem finds {idx : Index B ID} (h : Pooled base config pool idx) (hvis : Visited idx.rest)
    {f : FaissIndex B ID} (hf : f ∈ pool.all) :
    (f.Unshadowed → ∀ x v, f.Holds base x v → ∃ p ∈ idx.visited,
      (idx.seg p).index.Unshadowed ∧ (idx.seg p).index.Holds base x v) ∧
    (¬ f.Unshadowed → ∃ p ∈ idx.visited, (idx.seg p).index = f) := by
  have hcurrent : ∀ p ∈ idx.current, p ∈ idx.visited := fun p hp =>
    Index.mem_visited.mpr (Or.inl (hvis p hp))
  have hlast : idx.last ∈ idx.visited := Index.mem_visited.mpr (Or.inr rfl)
  rcases Pool.mem_all.mp hf with hf | rfl
  · constructor
    · intro hu x v hx
      obtain ⟨p, hp, hheld⟩ := h.find_row x v ⟨f, hf, hu, hx⟩
      exact ⟨p, hcurrent p hp, hheld⟩
    · intro hu
      obtain ⟨p, hp, hheld⟩ := h.find_shadowed f hf hu
      exact ⟨p, hcurrent p hp, hheld⟩
  · rw [← h.last]
    exact ⟨fun hu x v hx => ⟨_, hlast, hu, hx⟩, fun _ => ⟨_, hlast, rfl⟩⟩

end Pooled

end Vecodex
