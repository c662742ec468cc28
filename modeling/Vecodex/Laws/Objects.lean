import Vecodex.Laws.Codec
import Vecodex.Laws.Growth
import Vecodex.Laws.Tasks

/-!
# The index objects of a writer that only adds

An index that only adds documents grows. While the rows can be counted in 64 bits, the files of its
segments give the segments back (`Grown`).

All index objects of a writer draw the ids of their segments from one sequence. When its values are
distinct, no id is known to two objects. `Orderly` collects this with what holds of every single
object and of the queue, for a writer whose requests add documents.
-/

namespace Vecodex

open Lib

variable {B Vec Dist Time : Type}

/-! ## One object -/

/-- What holds of an index that has only grown. -/
structure Grown (rt : Runtime B Text Vec Dist) (platform : Platform B) (w : Work B Text) :
    Prop where
  shape : Shape w
  feed : Feed rt w
  /-- The file of a segment gives the segment back. -/
  legible : ∀ p, w.index.heap.Alloc p → ∃ g, deserealizeSegment platform.toFiles
    (serializeSegment rt platform.toFiles (w.index.seg p)) = .ok (some g, []) ∧
      g.segId = w.index.idOf p ∧ g.index.Same (w.index.seg p).index

namespace Grown

variable {rt : Runtime B Text Vec Dist} {platform : Platform B} {w w' : Work B Text} {k : Nat}

/-- Fewer rows than 64 bits can count fit into the files. -/
theorem of_bounded (platform : Platform B) (hrand : ∀ m, rt.rand m < 256 ^ 8) (hk : k < 256 ^ 8)
    (hshape : Shape w) (hfeed : Feed rt w) (hbound : Bounded k w) : Grown rt platform w := by
  refine ⟨hshape, hfeed, fun p hp => ?_⟩
  obtain ⟨m, -, hm⟩ := hfeed.known_drawn (w.index.idOf p) (Or.inl ⟨p, hp, rfl⟩)
  have hid : w.index.idOf p < 256 ^ 8 := hm ▸ hrand m
  have hfits := (hshape.wf p).fits ((hbound.each p).trans_lt hk)
  obtain ⟨g, hg, hgid, hsame, -⟩ :=
    deserealizeSegment_serializeSegment rt platform.toFiles hid hfits []
  rw [List.append_nil] at hg
  exact ⟨g, hg, hgid, hsame⟩

theorem create (platform : Platform B) (hrand : ∀ m, rt.rand m < 256 ^ 8) (config : IndexConfig)
    (draws : Nat) :
    Grown rt platform (Index.create rt config true draws : Index B Text).rest :=
  of_bounded platform hrand (k := 0) (Nat.pow_pos (by decide)) (.create rt config true draws)
    (.create rt config draws) (.create rt 0 config draws)

/-- The file of a segment shows its rows. -/
theorem shows_iff (h : Grown rt platform w) (base : StoringBase rt.faiss) {p : Nat}
    (hp : w.index.heap.Alloc p) {x : Text} {v : Vec} :
    Shows base platform.toFiles (serializeSegment rt platform.toFiles (w.index.seg p)) x v ↔
      (w.index.seg p).index.Holds base x v := by
  obtain ⟨g, hg, -, hsame⟩ := h.legible p hp
  rw [shows_of_ok hg, hsame.holds_iff base]

/-- Others may draw in between. -/
theorem drawn {idx : Index B Text} (h : Grown rt platform idx.rest) {draws : Nat}
    (hle : idx.draws ≤ draws) :
    Grown rt platform ({ idx with draws := draws } : Index B Text).rest :=
  ⟨h.shape.drawn draws, h.feed.drawn hle, h.legible⟩

/-- The induction over a run that adds documents, while the rows fit into the files. -/
theorem of_runs (h : Grown rt platform w) (hrand : ∀ m, rt.rand m < 256 ^ 8)
    {changes : List (Change B Text Vec)} (hruns : Runs (Step rt) changes w w')
    (hput : ∀ c ∈ changes, c.IsPut) (hd : rt.Distinct w'.index.draws)
    (hk : k + changes.length < 256 ^ 8) (hobs : Observed w) (hbound : Bounded k w)
    {P : Work B Text → Prop} (hgrow : ∀ (rows : List (Text × Vec)) u u', Grown rt platform u →
      Shape u' → Feed rt u' → rt.Distinct u'.index.draws → Growth rt rows u u' → P u → P u')
    (hP : P w) : Observed w' ∧ Grown rt platform w' ∧ Bounded (k + changes.length) w' ∧ P w' := by
  have hend := h.feed.invariant hruns hput hd h.shape hobs (P := fun j u =>
    k + j < 256 ^ 8 → Grown rt platform u ∧ Bounded (k + j) u ∧ P u) ?_
    fun _ => ⟨h, hbound, hP⟩
  · exact ⟨hend.2.1, hend.2.2.2 hk⟩
  · intro j rows u u' hd hshape hshape' _ hfeed' hgrowth hu hlt
    rw [← Nat.add_assoc] at hlt ⊢
    obtain ⟨hgrown, hbound, hP⟩ := hu (by omega)
    have hbound' := hbound.grow hshape hgrowth
    exact ⟨.of_bounded platform hrand hlt hshape' hfeed' hbound', hbound',
      hgrow rows u u' hgrown hshape' hfeed' hd hgrowth hP⟩

end Grown

/-! ## All objects -/

/-- The writer and the tasks that have run after `k` events, when all requests add documents. -/
structure Orderly (rt : Runtime B Text Vec Dist) (platform : Platform B) (k : Nat) (w : Writer B)
    (ran : List Task) : Prop where
  counts : w.Counts
  accounted : Accounted w ran
  observed : ∀ o, w.objects.Alloc o → Observed (w.objects.get o).index.rest
  grown : ∀ o, w.objects.Alloc o → Grown rt platform (w.objects.get o).index.rest
  bounded : ∀ o, w.objects.Alloc o → Bounded k (w.objects.get o).index.rest
  /-- No id is known to two objects. -/
  separate : ∀ o o', w.objects.Alloc o → w.objects.Alloc o' → o ≠ o' → ∀ id,
    (w.objects.get o).index.rest.Known id → ¬ (w.objects.get o').index.rest.Known id

/-- A request to add changes an index by adding one row. -/
theorem WriteRequest.edit_isPut {request : WriteRequest Vec}
    (hadd : "delete" ∉ request.attributes) :
    (request.edit.op.changes : List (Change B Text Vec)).length = 1 ∧
      ∀ c ∈ (request.edit.op.changes : List (Change B Text Vec)), c.IsPut := by
  rw [WriteRequest.edit, if_pos hadd]
  refine ⟨rfl, fun c hc => ?_⟩
  obtain ⟨row, -, rfl⟩ := List.mem_map.mp hc
  trivial

namespace Orderly

variable {rt : Runtime B Text Vec Dist} {platform : Platform B} {k : Nat} {w : Writer B}
variable {ran : List Task}

theorem create (rt : Runtime B Text Vec Dist) (platform : Platform B)
    (indexesConfig : AList fun _ : String => IndexConfig) :
    Orderly rt platform 0 (Writer.create rt indexesConfig) [] where
  counts o ho := absurd ho (Nat.not_lt_zero o)
  accounted := .create rt indexesConfig
  observed o ho := absurd ho (Nat.not_lt_zero o)
  grown o ho := absurd ho (Nat.not_lt_zero o)
  bounded o ho := absurd ho (Nat.not_lt_zero o)
  separate o _ ho := absurd ho (Nat.not_lt_zero o)

/-- The ids of the objects have been drawn. -/
theorem known_drawn (h : Orderly rt platform k w ran) {o : Nat} (ho : w.objects.Alloc o)
    {id : Nat} (hid : (w.objects.get o).index.rest.Known id) : ∃ m < w.draws, rt.rand m = id := by
  obtain ⟨m, hm, hrand⟩ := (h.grown o ho).feed.known_drawn id hid
  exact ⟨m, Nat.lt_of_lt_of_le hm (h.counts o ho), hrand⟩

/-- The tasks that have run are among the calls. -/
theorem callsOf_le (h : Orderly rt platform k w ran) {o : Nat} (ho : w.objects.Alloc o) :
    (callsOf o ran).length ≤ (w.objects.get o).index.calls.length := by
  rw [← h.accounted.order o ho, List.length_append]
  exact Nat.le_add_right _ _

/-- When the queue is empty, all calls of an object have been delivered. -/
theorem all_delivered (h : Orderly rt platform k w ran) {o : Nat} (ho : w.objects.Alloc o)
    (hqueue : w.callbackRunner = []) :
    (w.objects.get o).index.calls.length ≤ (callsOf o ran).length := by
  rw [← h.accounted.order o ho, hqueue]
  exact (congrArg List.length (List.append_nil _)).le

theorem later (h : Orderly rt platform k w ran) : Orderly rt platform (k + 1) w ran :=
  ⟨h.counts, h.accounted, h.observed, h.grown, fun o ho => (h.bounded o ho).mono (Nat.le_succ k),
    h.separate⟩

theorem gauge (h : Orderly rt platform k w ran)
    (gauge : AList fun _ : String × String => Nat) :
    Orderly rt platform k { w with vectorsCount := gauge } ran :=
  ⟨h.counts, ⟨h.accounted.order, h.accounted.queued, h.accounted.ran⟩, h.observed, h.grown,
    h.bounded, h.separate⟩

theorem delivered (h : Orderly rt platform k w ran) {task : Task} {tasks : List Task}
    (hnext : w.callbackRunner = task :: tasks) :
    Orderly rt platform k { w with callbackRunner := tasks } (ran ++ [task]) :=
  ⟨h.counts, h.accounted.delivered hnext, h.observed, h.grown, h.bounded, h.separate⟩

/-- A new object draws an id that nobody knows. -/
theorem table (h : Orderly rt platform k w ran) (hrand : ∀ m, rt.rand m < 256 ^ 8)
    {env : Env Time} {w' : Writer B} (hstep : Writer.TableStep rt env w w')
    (hd : rt.Distinct w'.draws) : Orderly rt platform k w' ran where
  counts := h.counts.step hstep
  accounted := h.accounted.table hstep
  observed := Writer.forall_objects_step (Q := fun idx => Observed idx.rest) hstep
    (fun config => Observed.create rt config w.draws) h.observed
  grown := Writer.forall_objects_step (Q := fun idx => Grown rt platform idx.rest) hstep
    (fun config => Grown.create platform hrand config w.draws) h.grown
  bounded := Writer.forall_objects_step (Q := fun idx => Bounded k idx.rest) hstep
    (fun config => Bounded.create rt k config w.draws) h.bounded
  separate o o' ho ho' hne id hid hid' := by
    rcases hstep.objects_eq with ⟨hobjects, -⟩ | ⟨i, s, config, hobjects, hdraws⟩
    · rw [hobjects] at ho ho' hid hid'
      exact h.separate o o' ho ho' hne id hid hid'
    · rw [hobjects] at ho ho' hid hid'
      have hnew : ∀ {p}, w.objects.Alloc p → (w.objects.get p).index.rest.Known id →
          rt.rand w.draws ≠ id := by
        rintro p hp hid rfl
        obtain ⟨m, hm, hrand⟩ := h.known_drawn hp hid
        exact Nat.ne_of_lt hm (hd m (by omega) _ (by omega) hrand)
      rcases Heap.alloc_cases ho with ⟨ho, hget⟩ | ⟨rfl, hget⟩ <;>
        rcases Heap.alloc_cases ho' with ⟨ho', hget'⟩ | ⟨rfl, hget'⟩
      · rw [hget] at hid
        rw [hget'] at hid'
        exact h.separate o o' ho ho' hne id hid hid'
      · rw [hget] at hid
        rw [hget'] at hid'
        exact hnew ho hid (Feed.known_create hid')
      · rw [hget] at hid
        rw [hget'] at hid'
        exact hnew ho' hid' (Feed.known_create hid)
      · exact hne rfl

section Settle

variable {o : Nat} {index : Index B Text} {request : WriteRequest Vec}

/-- The call of a request, and what the growths in it keep. -/
theorem call (h : Orderly rt platform k w ran) (hrand : ∀ m, rt.rand m < 256 ^ 8)
    (hk : k + 1 < 256 ^ 8) (hadd : "delete" ∉ request.attributes) (ho : w.objects.Alloc o)
    (hexec : ({ (w.objects.get o).index with draws := w.draws } : Index B Text).exec rt
      request.edit.op = .ok index) (hd : rt.Distinct index.draws) {P : Work B Text → Prop}
    (hgrow : ∀ (rows : List (Text × Vec)) u u', Grown rt platform u → Shape u' → Feed rt u' →
      rt.Distinct u'.index.draws → Growth rt rows u u' → P u → P u')
    (hP : P ({ (w.objects.get o).index with draws := w.draws } : Index B Text).rest) :
    Observed index.rest ∧ Grown rt platform index.rest ∧ Bounded (k + 1) index.rest ∧
      P index.rest := by
  obtain ⟨hone, hput⟩ := WriteRequest.edit_isPut (B := B) hadd
  have hbound := h.bounded o ho
  have hend := ((h.grown o ho).drawn (h.counts o ho)).of_runs hrand (Index.exec_runs hexec) hput hd
    (hone ▸ hk) ((h.observed o ho).drawn _) ⟨hbound.total, hbound.each⟩ hgrow hP
  rwa [hone] at hend

theorem settle (h : Orderly rt platform k w ran) (hrand : ∀ m, rt.rand m < 256 ^ 8)
    (hk : k + 1 < 256 ^ 8) (hadd : "delete" ∉ request.attributes) (ho : w.objects.Alloc o)
    (hexec : ({ (w.objects.get o).index with draws := w.draws } : Index B Text).exec rt
      request.edit.op = .ok index) (hd : rt.Distinct index.draws) :
    Orderly rt platform (k + 1) (w.settle o index) ran := by
  obtain ⟨hobs', hgrown', hbound', -⟩ := h.call (P := fun _ => True) hrand hk hadd ho hexec hd
    (fun _ _ _ _ _ _ _ _ _ => trivial) trivial
  have hbegin := (h.grown o ho).drawn (h.counts o ho)
  have hruns := Index.exec_runs hexec
  have hget : ∀ o', w.objects.Alloc o' → ∀ {Q : Index B Text → Prop}, Q index →
      Q (w.objects.get o').index → Q ((w.settle o index).objects.get o').index := by
    intro o' _ Q hindex hold
    rw [Writer.settle_get]
    split
    · exact hindex
    · exact hold
  -- what the call has drawn no other object knows
  have hnew : ∀ o', w.objects.Alloc o' → o' ≠ o → ∀ id, index.rest.Known id →
      ¬ (w.objects.get o').index.rest.Known id := by
    intro o' ho' hne id hid hid'
    rcases hbegin.feed.known_of_runs hruns (WriteRequest.edit_isPut (B := B) hadd).2 hd
      hbegin.shape ((h.observed o ho).drawn _) hid with hid | ⟨m, hge, hlt, hrand⟩
    · exact h.separate o o' ho ho' hne.symm id hid hid'
    · obtain ⟨m', hm', hrand'⟩ := h.known_drawn ho' hid'
      have hge : w.draws ≤ m := hge
      have hlt : m < index.draws := hlt
      exact absurd (hd m hlt m' (by omega) (hrand.trans hrand'.symm)) (by omega)
  constructor
  · intro o' ho'
    refine hget o' ho' (Q := fun idx => idx.draws ≤ index.draws) (Nat.le_refl _) ?_
    exact (h.counts o' ho').trans (draws_le_of_runs hruns)
  · exact h.accounted.settle ho (calls_prefix_of_runs hruns)
  · exact fun o' ho' => hget o' ho' (Q := fun idx => Observed idx.rest) hobs' (h.observed o' ho')
  · exact fun o' ho' => hget o' ho' (Q := fun idx => Grown rt platform idx.rest) hgrown'
      (h.grown o' ho')
  · exact fun o' ho' => hget o' ho' (Q := fun idx => Bounded (k + 1) idx.rest) hbound'
      ((h.bounded o' ho').mono (Nat.le_succ k))
  · intro p q hp hq hne id hid hid'
    rw [Writer.settle_get] at hid hid'
    split at hid
    · next heq =>
      subst heq
      rw [if_neg hne.symm] at hid'
      exact hnew q hq hne.symm id hid hid'
    · split at hid'
      · next hpo heq => exact hnew p hp hpo id hid' hid
      · exact h.separate p q hp hq hne id hid hid'

end Settle

end Orderly

end Vecodex
