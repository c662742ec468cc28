import Vecodex.Laws.StoreRule

/-!
# Documents that stay in the store

A merge replaces two segments by one, and its task puts the new object before it deletes the two
old ones. As long as the puts of every task that deletes something succeed, a document never leaves
its bucket (`documents_last`): what an object to be deleted holds, a segment held that the same
task puts (`Safe`). A task does not look at what its puts return, though, and deletes the old
objects all the same (`failed_put_loses_documents`).
-/

namespace Vecodex

open Lib

variable {B Vec Dist Time : Type}

section Files

variable {rt : Runtime B Text Vec Dist} (base : StoringBase rt.faiss) (files : Files B)

/-- Some object of the bucket holds the row. -/
def Store.Contains (store : Store) (bucket : Nat) (x : Text) (v : Vec) : Prop :=
  ∃ id file, Store.view store bucket id = some file ∧ Shows base files file x v

/-- No operation takes a row out of its bucket. -/
def Lasting (log : List StoreOp) : Prop :=
  ∀ k bucket x v, Store.Contains base files (Archive.storeAfter (log.take k)) bucket x v →
    Store.Contains base files (Archive.storeAfter (log.take (k + 1))) bucket x v

variable {base files}

theorem Lasting.nil : Lasting base files [] := by
  intro k bucket x v h
  rwa [List.take_nil] at h ⊢

/-- One more operation that takes nothing out. -/
theorem Lasting.concat {log : List StoreOp} (h : Lasting base files log) {op : StoreOp}
    (hop : ∀ bucket x v, Store.Contains base files (Archive.storeAfter log) bucket x v →
      Store.Contains base files (op.apply (Archive.storeAfter log)) bucket x v) :
    Lasting base files (log ++ [op]) := by
  intro k bucket x v hk
  rcases Nat.lt_trichotomy k log.length with hlt | heq | hgt
  · rw [List.take_append_of_le_length hlt.le] at hk
    rw [List.take_append_of_le_length hlt]
    exact h k bucket x v hk
  · subst heq
    rw [List.take_left] at hk
    rw [List.take_of_length_le (by simp), Archive.storeAfter_concat]
    exact hop bucket x v hk
  · have hlen : (log ++ [op]).length ≤ k := by
      rw [List.length_append]
      exact hgt
    rw [List.take_of_length_le hlen] at hk
    rwa [List.take_of_length_le (hlen.trans (Nat.le_succ k))]

theorem Lasting.of_le {log : List StoreOp} (h : Lasting base files log) {m n : Nat} (hle : m ≤ n)
    {bucket : Nat} {x : Text} {v : Vec}
    (hm : Store.Contains base files (Archive.storeAfter (log.take m)) bucket x v) :
    Store.Contains base files (Archive.storeAfter (log.take n)) bucket x v := by
  induction n, hle using Nat.le_induction with
  | base => exact hm
  | succ n _ ih => exact h n bucket x v ih

end Files

/-! ## What the objects to be deleted hold -/

/-- The objects of a bucket, and the calls of an index that are still to be delivered. -/
structure Safe {rt : Runtime B Text Vec Dist} (base : StoringBase rt.faiss) (platform : Platform B)
    (n : Nat) (w : Work B Text) (objects : Nat → Option Bytes) : Prop where
  aligned : AlignedAll base w
  /-- An object under the id of a segment is that segment as it is now, and not the open one. -/
  own : ∀ p file, w.index.heap.Alloc p → objects (w.index.idOf p) = some file →
    p ≠ w.index.last ∧ file = serializeSegment rt platform.toFiles (w.index.seg p)
  /-- What an object holds that a call deletes, a segment holds that the call hands over. -/
  stored : ∀ id survivors, w.Erases n id survivors → ∀ file, objects id = some file →
    ∀ x v, Shows base platform.toFiles file x v →
      ∃ a ∈ survivors, (w.index.seg a).index.Holds base x v
  /-- So it is with the segment under the id, which an earlier call may still hand over. -/
  named : ∀ id survivors, w.Erases n id survivors → ∀ p, w.index.heap.Alloc p →
    w.index.idOf p = id → ∀ x v, (w.index.seg p).index.Holds base x v →
      ∃ a ∈ survivors, (w.index.seg a).index.Holds base x v

namespace Safe

variable {rt : Runtime B Text Vec Dist} {base : StoringBase rt.faiss} {platform : Platform B}
variable {n : Nat} {w w' : Work B Text} {objects : Nat → Option Bytes}

theorem create (base : StoringBase rt.faiss) (platform : Platform B) (config : IndexConfig)
    (draws : Nat) (objects : Nat → Option Bytes) (hnone : objects (rt.rand draws) = none) :
    Safe base platform 0 (Index.create rt config true draws : Index B Text).rest objects := by
  have herases : ∀ id survivors,
      ¬ (Index.create rt config true draws : Index B Text).rest.Erases 0 id survivors := by
    rintro id survivors (⟨c, hc, -⟩ | ⟨h, -⟩)
    · cases hc
    · cases h
  constructor
  · exact .create base config true draws
  · intro p file hp hfile
    rw [← Feed.known_create (Or.inl ⟨p, hp, rfl⟩), hnone] at hfile
    cases hfile
  · exact fun id survivors h => absurd h (herases id survivors)
  · exact fun id survivors h => absurd h (herases id survivors)

/-- What a call hands over are segments. -/
theorem survivor_alloc (hfeed : Feed rt w) {id : Nat} {survivors : List Nat}
    (h : w.Erases n id survivors) {a : Nat} (ha : a ∈ survivors) : w.index.heap.Alloc a := by
  refine (hfeed.pending_sealed a ?_).1
  rcases h with ⟨c, hc, -, rfl⟩ | ⟨-, rfl⟩
  · exact Or.inl ⟨c, List.mem_of_mem_drop hc, ha⟩
  · exact Or.inr (Or.inr ha)

section Grow

variable {rows : List (Text × Vec)}

/-- Under a known id stands the segment that stood there before. -/
theorem seg_of_known (hfeed : Feed rt w) (hd : rt.Distinct w'.index.draws)
    (hgrowth : Growth rt rows w w') {p : Nat} (hp : w'.index.heap.Alloc p)
    (hknown : w.Known (w'.index.idOf p)) :
    w.index.heap.Alloc p ∧ w'.index.idOf p = w.index.idOf p ∧
      (p ≠ w.index.last → p ≠ w'.index.last ∧ w'.index.seg p = w.index.seg p) := by
  refine (hgrowth.seg_cases hp).resolve_right fun hnew => ?_
  exact hfeed.rand_ne hd hnew.1 hknown hnew.2.symm

/-- An object under the id of a segment stays what it is. -/
theorem own_grow (h : Safe base platform n w objects) (hd : rt.Distinct w'.index.draws)
    (hdrawn : ∀ id, objects id ≠ none → ∃ m < w.index.draws, rt.rand m = id)
    (hgrowth : Growth rt rows w w') {p : Nat} {file : Bytes} (hp : w'.index.heap.Alloc p)
    (hfile : objects (w'.index.idOf p) = some file) :
    p ≠ w'.index.last ∧ file = serializeSegment rt platform.toFiles (w'.index.seg p) := by
  rcases hgrowth.seg_cases hp with ⟨hp, hid, hseg⟩ | ⟨hlt, hid⟩
  · rw [hid] at hfile
    obtain ⟨hne, rfl⟩ := h.own p file hp hfile
    rw [(hseg hne).2]
    exact ⟨(hseg hne).1, rfl⟩
  · -- nothing is stored under a value that is drawn only now
    rw [hid] at hfile
    obtain ⟨m, hm, heq⟩ := hdrawn _ (hfile ▸ Option.some_ne_none file)
    exact absurd (hd m (by omega) _ hlt heq) (by omega)

/-- What a call had to hand over before, it still has. -/
theorem covered_grow (h : Safe base platform n w objects) (hgrown : Grown rt platform w)
    (hd : rt.Distinct w'.index.draws) (hgrowth : Growth rt rows w w') {id : Nat}
    {survivors : List Nat} (herases : w.Erases n id survivors) :
    (∀ file, objects id = some file → ∀ x v, Shows base platform.toFiles file x v →
      ∃ a ∈ survivors, (w'.index.seg a).index.Holds base x v) ∧
    ∀ p, w'.index.heap.Alloc p → w'.index.idOf p = id → ∀ x v,
      (w'.index.seg p).index.Holds base x v →
      ∃ a ∈ survivors, (w'.index.seg a).index.Holds base x v := by
  have hmono : ∀ {x v}, (∃ a ∈ survivors, (w.index.seg a).index.Holds base x v) →
      ∃ a ∈ survivors, (w'.index.seg a).index.Holds base x v := by
    rintro x v ⟨a, ha, hholds⟩
    exact ⟨a, ha, hgrowth.holds_mono hgrown.shape h.aligned
      (survivor_alloc hgrown.feed herases ha) hholds⟩
  have hdoomed := herases.doomed.mono (Nat.zero_le n)
  constructor
  · exact fun file hfile x v hshows => hmono (h.stored id survivors herases file hfile x v hshows)
  · rintro p hp rfl x v hholds
    obtain ⟨hp, hid, hseg⟩ := seg_of_known hgrown.feed hd hgrowth hp (Or.inr hdoomed)
    rw [hid] at herases hdoomed
    -- the open segment carries no erased id
    have hne : p ≠ w.index.last := fun heq =>
      hgrown.feed.retired _ hdoomed p (Or.inr heq) rfl
    rw [(hseg hne).2] at hholds
    exact hmono (h.named _ survivors herases p hp rfl x v hholds)

/-- The new erasures of a growth are those of a join. -/
theorem erases_cases (hn : n ≤ w.index.calls.length) (hgrowth : Growth rt rows w w') {id : Nat}
    {survivors : List Nat} (h : w'.Erases n id survivors) :
    (∃ old, w.Erases n id old ∧ ∀ a ∈ old, a ∈ survivors) ∨
      ∃ j a b, w.index.levels.cell w.level j = some a ∧
        w.index.levels.cell w.level (j + 1) = some b ∧
        w'.index = w.index.join rt w.level j a b ∧ a ∈ survivors ∧
        (id = w.index.idOf b ∨ id = w.index.idOf a) := by
  cases hgrowth with
  | appended => exact Or.inl ⟨survivors, h, fun _ ha => ha⟩
  | quiet _ _ _ _ _ _ _ _ erases =>
    exact Or.inl ⟨survivors, (erases n hn id survivors).mp h, fun _ ha => ha⟩
  | sealed _ _ _ _ _ calls inserted erased =>
    unfold Work.Erases at h
    rw [calls, inserted, erased] at h
    exact Or.inl ⟨survivors, h, fun _ ha => ha⟩
  | @joined _ _ j a b _ left right index _ inserted erased =>
    unfold Work.Erases at h
    rw [index, inserted, erased] at h
    rcases h with hcall | ⟨hid, rfl⟩
    · exact Or.inl ⟨survivors, Or.inl hcall, fun _ ha => ha⟩
    · rcases List.mem_append.mp hid with hid | hid
      · exact Or.inl ⟨w.inserted, Or.inr ⟨hid, rfl⟩, fun _ ha => List.mem_append_left _ ha⟩
      · rw [List.mem_cons, List.mem_singleton] at hid
        exact Or.inr ⟨j, a, b, left, right, index,
          List.mem_append_right _ List.mem_cons_self, hid⟩

/-- What a join erases, the joined segment holds. -/
theorem covered_join (h : Safe base platform n w objects) (hgrown : Grown rt platform w)
    (hd : rt.Distinct w'.index.draws) (hgrowth : Growth rt rows w w') {j a b : Nat}
    (left : w.index.levels.cell w.level j = some a)
    (right : w.index.levels.cell w.level (j + 1) = some b)
    (index : w'.index = w.index.join rt w.level j a b) {id : Nat}
    (hid : id = w.index.idOf b ∨ id = w.index.idOf a) :
    (∀ file, objects id = some file → ∀ x v, Shows base platform.toFiles file x v →
      (w'.index.seg a).index.Holds base x v) ∧
    ∀ p, w'.index.heap.Alloc p → w'.index.idOf p = id → ∀ x v,
      (w'.index.seg p).index.Holds base x v → (w'.index.seg a).index.Holds base x v := by
  have hcurrent : b ∈ w.index.current ∧ a ∈ w.index.current :=
    ⟨Index.mem_current_of_cell right, Index.mem_current_of_cell left⟩
  obtain ⟨q, hq, hcases, rfl⟩ : ∃ q ∈ w.index.current, (q = b ∨ q = a) ∧ id = w.index.idOf q := by
    rcases hid with rfl | rfl
    · exact ⟨b, hcurrent.1, Or.inl rfl, rfl⟩
    · exact ⟨a, hcurrent.2, Or.inr rfl, rfl⟩
  have hqalloc := hgrown.shape.current_alloc q hq
  have hjoined : ∀ {x v}, (w.index.seg q).index.Holds base x v →
      (w'.index.seg a).index.Holds base x v := by
    intro x v hholds
    rw [index, h.aligned.join_holds hgrown.shape]
    rcases hcases with rfl | rfl
    · exact Or.inr ⟨rfl, hholds⟩
    · exact Or.inl hholds
  constructor
  · intro file hfile x v hshows
    obtain ⟨-, rfl⟩ := h.own q file hqalloc hfile
    exact hjoined ((hgrown.shows_iff base hqalloc).mp hshows)
  · intro p hp heq x v hholds
    obtain ⟨hp, hid, hseg⟩ := seg_of_known hgrown.feed hd hgrowth hp (Or.inl ⟨q, hqalloc, heq.symm⟩)
    obtain rfl := hgrown.feed.inj p q hp hqalloc (hid.symm.trans heq)
    rw [(hseg fun heq => hgrown.shape.last_current (heq ▸ hq)).2] at hholds
    exact hjoined hholds

theorem grow (h : Safe base platform n w objects) (hgrown : Grown rt platform w)
    (hd : rt.Distinct w'.index.draws) (hn : n ≤ w.index.calls.length)
    (hdrawn : ∀ id, objects id ≠ none → ∃ m < w.index.draws, rt.rand m = id)
    (hgrowth : Growth rt rows w w') : Safe base platform n w' objects := by
  have hcovered : ∀ id survivors, w'.Erases n id survivors →
      (∀ file, objects id = some file → ∀ x v, Shows base platform.toFiles file x v →
        ∃ a ∈ survivors, (w'.index.seg a).index.Holds base x v) ∧
      ∀ p, w'.index.heap.Alloc p → w'.index.idOf p = id → ∀ x v,
        (w'.index.seg p).index.Holds base x v →
        ∃ a ∈ survivors, (w'.index.seg a).index.Holds base x v := by
    intro id survivors herases
    rcases erases_cases hn hgrowth herases with
      ⟨old, hold, hsub⟩ | ⟨j, a, b, left, right, index, ha, hid⟩
    · have hmono : ∀ {x v}, (∃ a ∈ old, (w'.index.seg a).index.Holds base x v) →
          ∃ a ∈ survivors, (w'.index.seg a).index.Holds base x v :=
        fun ⟨a, ha, hholds⟩ => ⟨a, hsub a ha, hholds⟩
      obtain ⟨hstored, hnamed⟩ := h.covered_grow hgrown hd hgrowth hold
      exact ⟨fun file hfile x v hshows => hmono (hstored file hfile x v hshows),
        fun p hp heq x v hholds => hmono (hnamed p hp heq x v hholds)⟩
    · obtain ⟨hstored, hnamed⟩ := h.covered_join hgrown hd hgrowth left right index hid
      exact ⟨fun file hfile x v hshows => ⟨a, ha, hstored file hfile x v hshows⟩,
        fun p hp heq x v hholds => ⟨a, ha, hnamed p hp heq x v hholds⟩⟩
  exact ⟨h.aligned.grow hgrowth, fun p file hp hfile => h.own_grow hd hdrawn hgrowth hp hfile,
    fun id survivors herases => (hcovered id survivors herases).1,
    fun id survivors herases => (hcovered id survivors herases).2⟩

end Grow

section Deliver

variable {c : Call}

theorem put (h : Safe base platform n w objects) (hgrown : Grown rt platform w)
    (hc : w.index.calls[n]? = some c) {p : Nat} (hp : p ∈ c.inserted) :
    Safe base platform n w (Function.update objects (w.index.idOf p)
      (some (serializeSegment rt platform.toFiles (w.index.seg p)))) := by
  obtain ⟨halloc, hlast⟩ := hgrown.feed.inserted_sealed (List.mem_of_getElem? hc) hp
  refine ⟨h.aligned, fun q file hq hfile => ?_,
    fun id survivors herases file hfile x v hshows => ?_, h.named⟩
  · by_cases heq : w.index.idOf q = w.index.idOf p
    · obtain rfl := hgrown.feed.inj q p hq halloc heq
      rw [Function.update_self] at hfile
      exact ⟨hlast, (Option.some.inj hfile).symm⟩
    · rw [Function.update_of_ne heq] at hfile
      exact h.own q file hq hfile
  · by_cases heq : id = w.index.idOf p
    · subst heq
      rw [Function.update_self] at hfile
      rw [← Option.some.inj hfile, hgrown.shows_iff base halloc] at hshows
      exact h.named _ survivors herases p halloc rfl x v hshows
    · rw [Function.update_of_ne heq] at hfile
      exact h.stored id survivors herases file hfile x v hshows

theorem delete (h : Safe base platform n w objects) (id : Nat) :
    Safe base platform n w (Function.update objects id none) := by
  have hold : ∀ {id' file}, Function.update objects id none id' = some file →
      objects id' = some file := by
    intro id' file hfile
    by_cases heq : id' = id
    · rw [heq, Function.update_self] at hfile
      cases hfile
    · rwa [Function.update_of_ne heq] at hfile
  exact ⟨h.aligned, fun p file hp hfile => h.own p file hp (hold hfile),
    fun id survivors herases file hfile => h.stored id survivors herases file (hold hfile),
    h.named⟩

theorem done (h : Safe base platform n w objects) : Safe base platform (n + 1) w objects :=
  ⟨h.aligned, h.own,
    fun id survivors herases => h.stored id survivors (herases.mono (Nat.le_succ n)),
    fun id survivors herases => h.named id survivors (herases.mono (Nat.le_succ n))⟩

end Deliver

end Safe

/-! ## The store over a run -/

section Operations

variable {rt : Runtime B Text Vec Dist} {base : StoringBase rt.faiss} {files : Files B}
variable {store : Store} {bucket id : Nat}

/-- A put takes nothing out when it puts what is there. -/
theorem Store.Contains.put {file : Bytes} {ok : Bool}
    (hsame : ∀ old, Store.view store bucket id = some old → old = file) {bucket' : Nat} {x : Text}
    {v : Vec} (h : Store.Contains base files store bucket' x v) :
    Store.Contains base files ((StoreOp.putObject bucket id file ok).apply store) bucket' x v := by
  cases ok with
  | false => exact h
  | true =>
    obtain ⟨id', file', hfile', hshows⟩ := h
    refine ⟨id', file', ?_, hshows⟩
    show Store.view (AList.insert _ _ _) bucket' id' = some file'
    rw [Store.view_insert]
    split
    · next heq =>
      subst heq
      by_cases hid : id' = id
      · subst hid
        rw [Function.update_self, hsame file' hfile']
      · rwa [Function.update_of_ne hid]
    · exact hfile'

/-- A deletion takes nothing out when another object holds what the deleted one does. -/
theorem Store.Contains.delete {bucket' : Nat} {x : Text} {v : Vec}
    (hother : ∀ old, Store.view store bucket id = some old → Shows base files old x v →
      ∃ id' ≠ id, ∃ file, Store.view store bucket id' = some file ∧ Shows base files file x v)
    (h : Store.Contains base files store bucket' x v) :
    Store.Contains base files ((StoreOp.delObject bucket id).apply store) bucket' x v := by
  have hkeep : ∀ {id' file}, (bucket' = bucket → id' ≠ id) →
      Store.view store bucket' id' = some file →
      Store.view ((StoreOp.delObject bucket id).apply store) bucket' id' = some file := by
    intro id' file hne hfile
    show Store.view (AList.erase _ _) bucket' id' = some file
    rw [Store.view_erase]
    split
    · next heq => rwa [Function.update_of_ne (hne heq), ← heq]
    · exact hfile
  obtain ⟨id', file, hfile, hshows⟩ := h
  by_cases hdeleted : bucket' = bucket ∧ id' = id
  · obtain ⟨rfl, rfl⟩ := hdeleted
    obtain ⟨id, hne, file, hfile, hshows⟩ := hother file hfile hshows
    exact ⟨id, file, hkeep (fun _ => hne) hfile, hshows⟩
  · exact ⟨id', file, hkeep (fun hbucket hid => hdeleted ⟨hbucket, hid⟩) hfile, hshows⟩

end Operations

/-- The rule for the documents in the store, when the puts of every task that deletes succeed. -/
theorem Safe.rule {rt : Runtime B Text Vec Dist} (base : StoringBase rt.faiss)
    (platform : Platform B) : StoreRule rt platform (fun c ok => c.erased ≠ [] → ok = true)
      (Safe base platform) (Lasting base platform.toFiles) where
  congr _ hagree h := by
    refine ⟨h.aligned, fun p file hp hfile => ?_, fun id survivors herases file hfile => ?_,
      h.named⟩
    · rw [hagree _ (Or.inl ⟨p, hp, rfl⟩)] at hfile
      exact h.own p file hp hfile
    · rw [hagree _ (Or.inr (herases.doomed.mono (Nat.zero_le _)))] at hfile
      exact h.stored id survivors herases file hfile
  drawn _ h := ⟨h.aligned, h.own, h.stored, h.named⟩
  create := Safe.create base platform
  grow hgrown _ _ hd hn hdrawn hgrowth h := h.grow hgrown hd hn hdrawn hgrowth
  put hgrown hc hp h := h.put hgrown hc hp
  delete _ _ _ h := h.delete _
  done _ _ _ _ _ h := h.done
  log_nil := .nil
  log_put ok hgrown hc hp h hlog := by
    refine hlog.concat fun bucket x v hcontains => hcontains.put fun old hold => ?_
    exact (h.own _ old (hgrown.feed.inserted_sealed (List.mem_of_getElem? hc) hp).1 hold).2
  log_delete {n w c id log bucket ok} hgrown hc hid hQ hok h hlog := by
    refine hlog.concat fun bucket' x v hcontains => hcontains.delete fun old hold hshows => ?_
    have herases : w.Erases n id c.inserted := Or.inl ⟨c, by
      rw [List.mem_iff_getElem?]
      exact ⟨0, by rw [List.getElem?_drop, Nat.add_zero]; exact hc⟩, hid, rfl⟩
    obtain ⟨a, ha, hholds⟩ := h.stored id c.inserted herases old hold x v hshows
    -- the task has put the segment, under an id it does not delete
    have hput := hok (hQ (List.ne_nil_of_mem hid)) a ha
    have halloc := (hgrown.feed.inserted_sealed (List.mem_of_getElem? hc) ha).1
    exact ⟨w.index.idOf a, hgrown.feed.apart n c hc id hid a
      ((Work.pending_cons hc).mpr (Or.inl ha)), _, hput,
      (hgrown.shows_iff base halloc).mpr hholds⟩

theorem joinedAdds_run (ok : Bool) :
    ∃ a, (Archive.start countingRuntime docsConfig (docsEnv ["east"] ["host"])).run countingRuntime
        linePlatform (joinedAdds ok) = .ok a ∧ a.writer.draws = 4 ∧
      (∃ file ∈ Store.view (Archive.storeAfter (a.log.take 1)) 4 0,
        ∃ r ∈ (deserealizeSegment linePlatform.toFiles file).toOption, ∃ g ∈ r.1,
          g.index.invIds.lookup 0 = some (letter 97) ∧ 0 ∉ g.index.erased ∧
            g.index.index[0]? = some 10) ∧
      (ok = false → (Archive.storeAfter (a.log.take 5)).keys = []) ∧
      (ok = true → ∀ d ∈ a.ran, ∀ op ∈ d.operations, op.failed = false) := by
  cases ok with
  | false => exact exists_ok (by decide +kernel)
  | true => exact exists_ok (by decide +kernel)

/-- The first document is in the store after the first operation. -/
theorem contains_of_eval {store : Store}
    (h : ∃ file ∈ Store.view store 4 0,
      ∃ r ∈ (deserealizeSegment linePlatform.toFiles file).toOption,
      ∃ g ∈ r.1, g.index.invIds.lookup 0 = some (letter 97) ∧ 0 ∉ g.index.erased ∧
        g.index.index[0]? = some 10) :
    Store.Contains countingBase linePlatform.toFiles store 4 (letter 97) 10 := by
  obtain ⟨file, hfile, ⟨found, rest⟩, hread, g, hg, hid, herased, hrow⟩ := h
  obtain rfl : found = some g := hg
  refine ⟨0, file, hfile, g, rest, ?_, 0, ⟨hid, herased⟩, hrow⟩
  cases hresult : deserealizeSegment linePlatform.toFiles file with
  | error e =>
    rw [hresult] at hread
    cases hread
  | ok r =>
    rw [hresult] at hread
    rw [Option.some.inj hread]

/-- In a run that only adds, a document that is in its bucket stays there, from any operation on
the store to any later one, if no put of a task fails that also deletes objects. -/
theorem documents_last [LT Time] [DecidableLT Time] {rt : Runtime B Text Vec Dist}
    (base : StoringBase rt.faiss) (platform : Platform B) (hrand : ∀ m, rt.rand m < 256 ^ 8)
    {indexesConfig : AList fun _ : String => IndexConfig} {env : Env Time}
    {events : List (ArchiveEvent Vec Time)} {a : Archive B} (hlen : events.length < 256 ^ 8)
    (hadd : ∀ env request, ArchiveEvent.write env request ∈ events → "delete" ∉ request.attributes)
    (hrun : (Archive.start rt indexesConfig env).run rt platform events = .ok a)
    (hd : rt.Distinct a.writer.draws)
    (hputs : ∀ d ∈ a.ran, d.task.call.erased ≠ [] → ∀ op ∈ d.operations, op.failed = false)
    {m n : Nat} (hle : m ≤ n) {bucket : Nat} {x : Text} {v : Vec}
    (h : Store.Contains base platform.toFiles (Archive.storeAfter (a.log.take m)) bucket x v) :
    Store.Contains base platform.toFiles (Archive.storeAfter (a.log.take n)) bucket x v := by
  have hend := (Safe.rule base platform).of_run hrand hlen hadd hrun hd
    fun d hdelivery herased => by
    rw [List.all_eq_true]
    exact fun op hop => (Bool.not_eq_true' _).mpr (hputs d hdelivery herased op hop)
  exact hend.2.log.of_le hle h

theorem documents_last_joined :
    ∃ a, (Archive.start countingRuntime docsConfig (docsEnv ["east"] ["host"])).run countingRuntime
        linePlatform (joinedAdds true) = .ok a ∧
      Store.Contains countingBase linePlatform.toFiles (Archive.storeAfter (a.log.take 5))
        (linePlatform.hash "docs") (letter 97) 10 := by
  obtain ⟨a, hrun, hdraws, hfirst, -, hputs⟩ := joinedAdds_run true
  exact ⟨a, hrun, documents_last countingBase linePlatform countingRuntime_lt (by decide)
    (fun env request hmem => (joinedAdds_write hmem).2) hrun (hdraws ▸ countingRuntime_distinct)
    (fun d hdelivery _ => hputs rfl d hdelivery) (by decide) (contains_of_eval hfirst)⟩

/-- The put of the joined segment fails, the two old objects are deleted, and both documents are
gone. -/
theorem failed_put_loses_documents :
    ∃ a, (Archive.start countingRuntime docsConfig (docsEnv ["east"] ["host"])).run countingRuntime
        linePlatform (joinedAdds false) = .ok a ∧ countingRuntime.Distinct a.writer.draws ∧
      Store.Contains countingBase linePlatform.toFiles (Archive.storeAfter (a.log.take 1))
        (linePlatform.hash "docs") (letter 97) 10 ∧
      ¬ Store.Contains countingBase linePlatform.toFiles (Archive.storeAfter (a.log.take 5))
        (linePlatform.hash "docs") (letter 97) 10 := by
  obtain ⟨a, hrun, hdraws, hfirst, hempty, -⟩ := joinedAdds_run false
  refine ⟨a, hrun, hdraws ▸ countingRuntime_distinct, contains_of_eval hfirst, ?_⟩
  rintro ⟨id, file, hfile, -⟩
  have hmem := AList.mem_keys.mp (AList.lookup_isSome.mp (Option.isSome_of_eq_some hfile))
  rw [hempty rfl] at hmem
  exact List.not_mem_nil hmem

end Vecodex
