import Vecodex.App.Process
import Vecodex.Laws.Levels
import Vecodex.Laws.Replication
import Vecodex.Laws.Search
import Vecodex.Laws.Truncation

/-!
# Requests to a searcher

`ProcessUpdateRequest` pushes the added segments one by one and stops at the first one it cannot
get. What it pushed before stays. `all_or_nothing_iff` says for which requests this cannot be seen.

Over a run the shards of the configuration keep an index each (`Stocked`), whatever the requests
are, so the result is about every state of the process.
-/

namespace Vecodex

open Lib

variable {B Vec Dist : Type}

/-! ## Pushed segments -/

/-- The segments of the list that a search walks, before the open one. -/
def Index.held (idx : Index B Text) : List (Segment B Text) := idx.segments.map idx.seg

theorem Index.Rooted.held_pushSegment {idx idx' : Index B Text} {segment : Segment B Text}
    (hroot : idx.Rooted) (h : idx.pushSegment segment = .ok idx') :
    idx'.held = idx.held ++ [segment] := by
  have hseg := Index.pushSegment_seg h
  have hsegments : idx'.segments = idx.segments ++ [idx.heap.next] := by
    obtain ⟨levels, -, rfl⟩ := Index.pushSegment_eq_ok h
    rfl
  unfold Index.held
  rw [hsegments, List.map_append, List.map_singleton, hseg, if_pos rfl]
  congr 1
  apply List.map_congr_left
  intro p hp
  have hlt : p < idx.heap.next := hroot p (Index.mem_visited.mpr (Or.inl hp))
  rw [hseg, if_neg (Nat.ne_of_lt hlt)]

/-- The loop of `storage_.add` stops before its shift is as wide as the word. -/
theorem Index.levelLoop_lt {size fuel i i' : Nat} {levels levels' : Grid Nat}
    (h : Index.levelLoop size fuel i levels = .ok (i', levels')) : i' < i + fuel := by
  induction fuel generalizing i levels with
  | zero => cases h
  | succ fuel ih =>
    rw [Index.levelLoop] at h
    split at h
    · have := ih h
      omega
    · cases h
      omega

/-- A segment can be pushed when some shift of the word reaches its size. -/
theorem Index.pushSegment_ok_iff (idx : Index B Text) (segment : Segment B Text) :
    (∃ idx', idx.pushSegment segment = .ok idx') ↔ segment.size ≤ 2 ^ 63 := by
  have hself : (idx.heap.alloc segment).get idx.heap.next = segment := Heap.alloc_get_next ..
  constructor
  · rintro ⟨idx', h⟩
    obtain ⟨st, hst, -⟩ := bind_eq_ok.mp h
    obtain ⟨⟨i, levels⟩, hlevel, -⟩ := bind_eq_ok.mp hst
    obtain ⟨hsize, -⟩ := Index.levelLoop_level hlevel
    have hlt := Index.levelLoop_lt hlevel
    have hpow : 2 ^ i ≤ 2 ^ 63 := Nat.pow_le_pow_right (by decide) (by omega)
    simp only [Index.seg, hself] at hsize
    exact hsize.trans hpow
  · intro hsize
    have hseg : (({ idx with heap := idx.heap.alloc segment } : Index B Text).seg
        idx.heap.next).size ≤ 2 ^ 63 := by
      simpa only [Index.seg, hself] using hsize
    obtain ⟨st, hst⟩ := Index.storageAdd_total _ hseg
    exact ⟨_, bind_eq_ok.mpr ⟨st, hst, rfl⟩⟩

/-- A file that cannot be read is the only exception of `DeserealizeSegment`. -/
theorem deserealizeSegment_eq_error {files : Files B} {bs : Bytes} {e : Fault}
    (h : deserealizeSegment files bs = .error e) : e = .unreadable := by
  have hread : ∀ kind rest, Segment.ofFile files kind rest = .error e → e = .unreadable := by
    intro kind rest hfile
    unfold Segment.ofFile at hfile
    cases hindex : FaissIndex.ofFile files kind rest with
    | error fault =>
      rw [hindex, error_bind] at hfile
      cases hfile
      exact FaissIndex.ofFile_eq_error hindex
    | ok r =>
      rw [hindex] at hfile
      cases hfile
  unfold deserealizeSegment at h
  dsimp only at h
  split at h
  · exact hread _ _ h
  · split at h
    · exact hread _ _ h
    · cases h

namespace SearcherProcess

variable {p : SearcherProcess B} {i sh : String}

/-! ## Entries -/

theorem lookup_setEntry (p : SearcherProcess B) (i sh : String) (x : Option (Index B Text))
    (j t : String) :
    ((p.setEntry i sh x).table j).lookup t =
      if j = i ∧ t = sh then some x else (p.table j).lookup t :=
  lookup_insert_insert p.shards i sh x j t

theorem entry_setEntry (p : SearcherProcess B) (i sh : String) (x : Option (Index B Text))
    (j t : String) :
    (p.setEntry i sh x).entry j t = if j = i ∧ t = sh then x else p.entry j t := by
  simp only [entry, lookup_setEntry]
  split <;> rfl

theorem has_iff {j t : String} : p.Has j t ↔ ((p.table j).lookup t).isSome :=
  AList.lookup_isSome.symm

theorem has_setEntry (p : SearcherProcess B) (i sh : String) (x : Option (Index B Text))
    (j t : String) : (p.setEntry i sh x).Has j t ↔ (j = i ∧ t = sh) ∨ p.Has j t := by
  simp only [has_iff, lookup_setEntry]
  split <;> simp_all

theorem table_subscriptTable (p : SearcherProcess B) (i j : String) :
    (p.subscriptTable i).table j = p.table j := by
  unfold subscriptTable table
  by_cases hj : j = i
  · subst hj
    rw [AList.lookup_insert, Option.getD_some]
  · rw [AList.lookup_insert_ne hj]

theorem entry_subscript (p : SearcherProcess B) (i sh j t : String) :
    (p.subscript i sh).entry j t = p.entry j t := by
  unfold subscript
  split
  · simp only [entry, table_subscriptTable]
  · next hnew =>
    rw [entry_setEntry]
    split
    · next heq =>
      obtain ⟨rfl, rfl⟩ := heq
      have hnone : (p.table j).lookup t = none := AList.lookup_eq_none.mpr hnew
      simp only [entry, hnone, Option.join_none]
    · rfl

theorem has_subscript (p : SearcherProcess B) (i sh j t : String) :
    (p.subscript i sh).Has j t ↔ (j = i ∧ t = sh) ∨ p.Has j t := by
  unfold subscript
  split
  · next hold =>
    unfold Has at *
    rw [table_subscriptTable]
    refine ⟨Or.inr, ?_⟩
    rintro (⟨rfl, rfl⟩ | h)
    · exact hold
    · exact h
  · exact has_setEntry p i sh none j t

theorem subscript_rest (p : SearcherProcess B) (i sh : String) :
    (p.subscript i sh).files = p.files ∧ (p.subscript i sh).used = p.used ∧
      (p.subscript i sh).ended = p.ended := by
  unfold subscript
  split <;> exact ⟨rfl, rfl, rfl⟩

/-- The process once `shards[index_id][shard_id]` is evaluated for a call. -/
def called (p : SearcherProcess B) (i sh : String) : SearcherProcess B :=
  (p.subscript i sh).use i sh

@[simp]
theorem entry_called (p : SearcherProcess B) (i sh j t : String) :
    (p.called i sh).entry j t = p.entry j t :=
  entry_subscript p i sh j t

@[simp]
theorem files_called (p : SearcherProcess B) (i sh : String) :
    (p.called i sh).files = p.files :=
  (subscript_rest p i sh).1

theorem has_called (p : SearcherProcess B) (i sh j t : String) :
    (p.called i sh).Has j t ↔ (j = i ∧ t = sh) ∨ p.Has j t :=
  has_subscript p i sh j t

theorem used_called (p : SearcherProcess B) (i sh : String) :
    (p.called i sh).used = p.used ++ [(i, sh)] := by
  unfold called use
  rw [(subscript_rest p i sh).2.1]

/-- What a call through an entry can do. -/
theorem call_cases (p : SearcherProcess B) (i sh : String)
    (f : Index B Text → Except Fault (Index B Text)) :
    (p.entry i sh = none ∧ p.call i sh f = (.error .nullIndex, p.called i sh)) ∨
    (∃ index e, p.entry i sh = some index ∧ f index = .error e ∧
      p.call i sh f = (.error e, p.called i sh)) ∨
    ∃ index index', p.entry i sh = some index ∧ f index = .ok index' ∧
      p.call i sh f = (.ok (), (p.called i sh).setEntry i sh (some index')) := by
  have hsame : ((p.subscript i sh).use i sh).entry i sh = p.entry i sh := entry_called p i sh i sh
  unfold call
  dsimp only
  rw [hsame]
  cases hentry : p.entry i sh with
  | none => exact Or.inl ⟨rfl, rfl⟩
  | some index =>
    dsimp only
    cases hf : f index with
    | error e => exact Or.inr (Or.inl ⟨index, e, rfl, hf, rfl⟩)
    | ok index' => exact Or.inr (Or.inr ⟨index, index', rfl, hf, rfl⟩)

/-! ## The loops of an update -/

section Update

variable {platform : Platform B} {store : Store} {request : UpdateRequest}

/-- The process once a segment was pushed and its file removed. -/
def pushed (p : SearcherProcess B) (i sh : String) (id : Nat) (index : Index B Text) :
    SearcherProcess B :=
  let p := (p.called i sh).setEntry i sh (some index)
  { p with files := Function.update p.files id none }

theorem entry_pushed (p : SearcherProcess B) (i sh : String) (id : Nat) (index : Index B Text)
    (j t : String) :
    (p.pushed i sh id index).entry j t = if j = i ∧ t = sh then some index else p.entry j t := by
  have hset := entry_setEntry (p.called i sh) i sh (some index) j t
  rwa [entry_called] at hset

/-- A pushed segment leaves no file of its own. -/
theorem files_pushed (platform : Platform B) (store : Store) (p : SearcherProcess B)
    (i sh : String) (id : Nat) (index : Index B Text) :
    ((p.getObject platform store i id).pushed i sh id index).files =
      Function.update p.files id none := by
  have hfiles := files_called (p.getObject platform store i id) i sh
  show Function.update ((p.getObject platform store i id).called i sh).files id none = _
  rw [hfiles]
  exact Function.update_idem ..

/-- What a round of the first loop can do. -/
inductive PushRound (platform : Platform B) (store : Store) (request : UpdateRequest)
    (p : SearcherProcess B) (id : Nat) : Except Fault Unit × SearcherProcess B → Prop
  | missing (hfile : fetched platform store request.indexId p.files id = none) :
    PushRound platform store request p id
      (.error .missingObject, p.getObject platform store request.indexId id)
  | unreadable {file : Bytes}
    (hfile : fetched platform store request.indexId p.files id = some file)
    (hread : deserealizeSegment platform.toFiles file = .error .unreadable) :
    PushRound platform store request p id
      (.error .unreadable, p.getObject platform store request.indexId id)
  | fatal {file : Bytes} {out : Option (Segment B Text) × Bytes} {e : Fault}
    (hfile : fetched platform store request.indexId p.files id = some file)
    (hread : deserealizeSegment platform.toFiles file = .ok out) (hfatal : e.isException = false)
    (hstuck : ∀ index, p.entry request.indexId request.shardId = some index →
      ∀ segment, out.1 = some segment → ¬ segment.size ≤ 2 ^ 63) :
    PushRound platform store request p id
      (.error e, (p.getObject platform store request.indexId id).called request.indexId
        request.shardId)
  | done {file rest : Bytes} {segment : Segment B Text} {index index' : Index B Text}
    (hfile : fetched platform store request.indexId p.files id = some file)
    (hread : deserealizeSegment platform.toFiles file = .ok (some segment, rest))
    (hentry : p.entry request.indexId request.shardId = some index)
    (hpush : index.pushSegment segment = .ok index') :
    PushRound platform store request p id
      (.ok (), (p.getObject platform store request.indexId id).pushed request.indexId
        request.shardId id index')

theorem pushAdded_round (platform : Platform B) (store : Store) (request : UpdateRequest)
    (p : SearcherProcess B) (id : Nat) :
    PushRound platform store request p id (p.pushAdded platform store request id) := by
  have hopen : (p.getObject platform store request.indexId id).files id =
      fetched platform store request.indexId p.files id := Function.update_self ..
  unfold pushAdded
  dsimp only
  rw [hopen]
  cases hfile : fetched platform store request.indexId p.files id with
  | none => exact .missing hfile
  | some file =>
    dsimp only
    cases hread : deserealizeSegment platform.toFiles file with
    | error e =>
      obtain rfl := deserealizeSegment_eq_error hread
      exact .unreadable hfile hread
    | ok out =>
      obtain ⟨segment, rest⟩ := out
      dsimp only
      -- the entry decides first, then the segment, then its size
      rcases call_cases (p.getObject platform store request.indexId id) request.indexId
        request.shardId (pushFetched segment) with
        ⟨hnull, hcall⟩ | ⟨index, e, hentry, hf, hcall⟩ | ⟨index, index', hentry, hf, hcall⟩
      · rw [hcall]
        refine .fatal hfile hread rfl fun index hindex => ?_
        have hsome : (p.getObject platform store request.indexId id).entry request.indexId
          request.shardId = some index := hindex
        rw [hnull] at hsome
        cases hsome
      · rw [hcall]
        cases segment with
        | none =>
          cases hf
          refine .fatal hfile hread rfl fun _ _ segment hsegment => ?_
          cases hsegment
        | some segment =>
          have hshift := Index.pushSegment_eq_error hf
          refine .fatal hfile hread (by rw [hshift]; rfl) fun _ _ s hs hsize => ?_
          cases hs
          obtain ⟨index', hok⟩ := (Index.pushSegment_ok_iff index segment).mpr hsize
          rw [pushFetched, hok] at hf
          cases hf
      · rw [hcall]
        cases segment with
        | none => cases hf
        | some segment => exact .done hfile hread hentry hf

/-! ## Updates as a whole -/

/-- The files of the added ids hold these segments. A file is removed once it is read. -/
inductive Loads (platform : Platform B) (store : Store) (indexId : String) :
    (Nat → Option Bytes) → List Nat → List (Segment B Text) → Prop
  | nil (files : Nat → Option Bytes) : Loads platform store indexId files [] []
  | cons {files : Nat → Option Bytes} {id : Nat} {ids : List Nat} {file rest : Bytes}
    {segment : Segment B Text} {segments : List (Segment B Text)}
    (hfile : fetched platform store indexId files id = some file)
    (hread : deserealizeSegment platform.toFiles file = .ok (some segment, rest))
    (tail : Loads platform store indexId (Function.update files id none) ids segments) :
    Loads platform store indexId files (id :: ids) (segment :: segments)

/-- The file of the first added id is there and cannot be read. -/
def FirstUnreadable (platform : Platform B) (store : Store) (indexId : String)
    (files : Nat → Option Bytes) (added : List Nat) : Prop :=
  ∃ id ids file, added = id :: ids ∧ fetched platform store indexId files id = some file ∧
    deserealizeSegment platform.toFiles file = .error .unreadable

theorem firstUnreadable_cons {indexId : String} {files : Nat → Option Bytes} {id : Nat}
    {ids : List Nat} :
    FirstUnreadable platform store indexId files (id :: ids) ↔
      ∃ file, fetched platform store indexId files id = some file ∧
        deserealizeSegment platform.toFiles file = .error .unreadable := by
  constructor
  · rintro ⟨id', ids', file, heq, hfile, hread⟩
    cases heq
    exact ⟨file, hfile, hread⟩
  · rintro ⟨file, hfile, hread⟩
    exact ⟨id, ids, file, rfl, hfile, hread⟩

theorem FirstUnreadable.not_loads {indexId : String} {files : Nat → Option Bytes} {ids : List Nat}
    {segments : List (Segment B Text)} (h : FirstUnreadable platform store indexId files ids) :
    ¬ Loads platform store indexId files ids segments := by
  intro hload
  cases hload with
  | nil =>
    obtain ⟨_, _, _, heq, -⟩ := h
    cases heq
  | cons hfile hread _ =>
    obtain ⟨file, hfile', hread'⟩ := firstUnreadable_cons.mp h
    obtain rfl := Option.some.inj (hfile.symm.trans hfile')
    rw [hread] at hread'
    cases hread'

theorem Loads.unique {indexId : String} {files : Nat → Option Bytes} {ids : List Nat}
    {segments segments' : List (Segment B Text)}
    (h : Loads platform store indexId files ids segments)
    (h' : Loads platform store indexId files ids segments') : segments = segments' := by
  induction h generalizing segments' with
  | nil => cases h' with
    | nil => rfl
  | cons hfile hread _ ih =>
    cases h' with
    | cons hfile' hread' htail' =>
      obtain rfl := Option.some.inj (hfile.symm.trans hfile')
      cases hread.symm.trans hread'
      rw [ih htail']

/-- What the first loop leaves: the segments up to the first failure. -/
theorem pushLoop_cases (platform : Platform B) (store : Store) {index : Index B Text}
    (added : List Nat) (hentry : p.entry request.indexId request.shardId = some index)
    (hroot : index.Rooted) :
    ∃ q index' loaded,
      q.entry request.indexId request.shardId = some index' ∧ index'.held = index.held ++ loaded ∧
      ((foldStop (pushAdded platform store request) added p = (.ok (), q) ∧
          Loads platform store request.indexId p.files added loaded ∧
          ∀ s ∈ loaded, s.size ≤ 2 ^ 63) ∨
        ∃ e, foldStop (pushAdded platform store request) added p = (.error e, q) ∧
          (∀ segments, Loads platform store request.indexId p.files added segments →
            ¬ ∀ s ∈ segments, s.size ≤ 2 ^ 63) ∧
          (e.isException = true ∧ loaded = [] ↔
            FirstUnreadable platform store request.indexId p.files added)) := by
  induction added generalizing p index with
  | nil =>
    refine ⟨p, index, [], hentry, (List.append_nil _).symm, Or.inl ⟨rfl, .nil _, ?_⟩⟩
    intro s hs
    cases hs
  | cons id ids ih =>
    rcases hstep : p.pushAdded platform store request id with ⟨result, q⟩
    have hround := pushAdded_round platform store request p id
    rw [hstep] at hround
    cases hround with
    | missing hfile =>
      refine ⟨p.getObject platform store request.indexId id, index, [], hentry,
        (List.append_nil _).symm, Or.inr ⟨.missingObject, foldStop_cons_error hstep ids,
          fun segments hload => ?_, ?_⟩⟩
      · cases hload with
        | cons hfile' _ _ =>
          rw [hfile] at hfile'
          cases hfile'
      · simp [firstUnreadable_cons, hfile, Fault.isException]
    | unreadable hfile hread =>
      have hbad : FirstUnreadable platform store request.indexId p.files (id :: ids) :=
        firstUnreadable_cons.mpr ⟨_, hfile, hread⟩
      refine ⟨p.getObject platform store request.indexId id, index, [], hentry,
        (List.append_nil _).symm, Or.inr ⟨.unreadable, foldStop_cons_error hstep ids,
          fun segments hload _ => hbad.not_loads hload, fun _ => hbad, fun _ => ⟨rfl, rfl⟩⟩⟩
    | fatal hfile hread hfatal hstuck =>
      refine ⟨(p.getObject platform store request.indexId id).called request.indexId
        request.shardId, index, [], (entry_called _ _ _ _ _).trans hentry,
        (List.append_nil _).symm, Or.inr ⟨_, foldStop_cons_error hstep ids,
          fun segments hload hsize => ?_, ?_⟩⟩
      · cases hload with
        | cons hfile' hread' _ =>
          obtain rfl := Option.some.inj (hfile.symm.trans hfile')
          cases hread.symm.trans hread'
          exact hstuck index hentry _ rfl (hsize _ List.mem_cons_self)
      · simp [firstUnreadable_cons, hfile, hread, hfatal]
    | @done file rest segment index₀ index₁ hfile hread hentry₀ hpush =>
      obtain rfl := Option.some.inj (hentry.symm.trans hentry₀)
      have hnext : ((p.getObject platform store request.indexId id).pushed request.indexId
          request.shardId id index₁).entry request.indexId request.shardId = some index₁ := by
        rw [entry_pushed, if_pos ⟨rfl, rfl⟩]
      have hsize : segment.size ≤ 2 ^ 63 := (Index.pushSegment_ok_iff index segment).mp ⟨_, hpush⟩
      obtain ⟨q, index', loaded, hq, hheld, hcases⟩ := ih hnext (hroot.pushSegment hpush)
      rw [files_pushed] at hcases
      rw [hroot.held_pushSegment hpush, List.append_assoc, List.singleton_append] at hheld
      refine ⟨q, index', segment :: loaded, hq, hheld, ?_⟩
      rw [foldStop_cons_ok hstep]
      rcases hcases with ⟨hok, hload, hsizes⟩ | ⟨e, herr, hnone, -⟩
      · refine Or.inl ⟨hok, .cons hfile hread hload, fun s hs => ?_⟩
        rcases List.mem_cons.mp hs with rfl | hs
        · exact hsize
        · exact hsizes s hs
      · refine Or.inr ⟨e, herr, fun segments hsegments hsizes => ?_, ?_⟩
        · cases hsegments with
          | cons _ _ htail =>
            exact hnone _ htail fun s hs => hsizes s (List.mem_cons_of_mem _ hs)
        · simp [firstUnreadable_cons, hfile, hread]

/-- The second loop changes nothing of the shard. -/
theorem eraseLoop_eq {index : Index B Text} (deleted : List Nat)
    (hentry : p.entry request.indexId request.shardId = some index) :
    ∃ q, foldStop (eraseDeleted request) deleted p = (.ok (), q) ∧
      q.entry request.indexId request.shardId = some index := by
  induction deleted generalizing p with
  | nil => exact ⟨p, rfl, hentry⟩
  | cons id ids ih =>
    rcases call_cases p request.indexId request.shardId
      (fun index => .ok (index.eraseSegment id).2) with
      ⟨hnull, -⟩ | ⟨_, _, -, hf, -⟩ | ⟨index₀, index₁, hentry₀, hf, hcall⟩
    · rw [hentry] at hnull
      cases hnull
    · cases hf
    · obtain rfl := Option.some.inj (hentry.symm.trans hentry₀)
      have hsame : index₁ = index := by
        rw [← Except.ok.inj hf]
        exact Index.eraseSegment_same index id
      have hnext : ((p.called request.indexId request.shardId).setEntry request.indexId
          request.shardId (some index₁)).entry request.indexId request.shardId = some index := by
        rw [entry_setEntry, if_pos ⟨rfl, rfl⟩, hsame]
      obtain ⟨q, hloop, hq⟩ := ih hnext
      exact ⟨q, (foldStop_cons_ok hcall ids).trans hloop, hq⟩

theorem processUpdateRequest_of_ok {q : SearcherProcess B}
    (h : foldStop (pushAdded platform store request) request.added p = (.ok (), q)) :
    p.processUpdateRequest platform store request =
      foldStop (eraseDeleted request) request.deleted q := by
  rw [processUpdateRequest, h]

theorem processUpdateRequest_of_error {q : SearcherProcess B} {e : Fault}
    (h : foldStop (pushAdded platform store request) request.added p = (.error e, q)) :
    p.processUpdateRequest platform store request = (.error e, q) := by
  rw [processUpdateRequest, h]

/-- The segments of a shard. -/
def held (p : SearcherProcess B) (i sh : String) : List (Segment B Text) :=
  ((p.entry i sh).map Index.held).getD []

theorem held_of_entry {index : Index B Text} (h : p.entry i sh = some index) :
    p.held i sh = index.held := by
  simp only [held, h, Option.map_some, Option.getD_some]

/-- The answer is OK and the request is carried out, or the answer is an error and the segments of
the shard are what they were. -/
def AllOrNothing (platform : Platform B) (store : Store) (p : SearcherProcess B)
    (request : UpdateRequest) : Prop :=
  let result := p.processUpdateRequest platform store request
  let before := p.held request.indexId request.shardId
  let after := result.2.held request.indexId request.shardId
  (result.1 = .ok () ∧
    ∃ segments, Loads platform store request.indexId p.files request.added segments ∧
      after = (before ++ segments).filter fun s => s.segId ∉ request.deleted) ∨
  ∃ e, result.1 = .error e ∧ e.isException = true ∧ after = before

/-- All added segments can be had and no segment of the shard is to be deleted, or already the
first file cannot be read. -/
def Carried (platform : Platform B) (store : Store) (p : SearcherProcess B)
    (request : UpdateRequest) : Prop :=
  (∃ segments, Loads platform store request.indexId p.files request.added segments ∧
    (∀ s ∈ segments, s.size ≤ 2 ^ 63) ∧
    ∀ s ∈ p.held request.indexId request.shardId ++ segments, s.segId ∉ request.deleted) ∨
  FirstUnreadable platform store request.indexId p.files request.added

theorem allOrNothing_of_entry {index : Index B Text}
    (hentry : p.entry request.indexId request.shardId = some index) (hroot : index.Rooted) :
    AllOrNothing platform store p request ↔ Carried platform store p request := by
  obtain ⟨q, index', loaded, hq, hheld, hcases⟩ :=
    pushLoop_cases platform store request.added hentry hroot
  unfold AllOrNothing Carried
  dsimp only
  rw [held_of_entry hentry]
  rcases hcases with ⟨hok, hload, hsizes⟩ | ⟨e, herr, hnone, hfirst⟩
  · -- every segment was pushed, so the answer is OK and nothing was dropped
    obtain ⟨q', hloop, hq'⟩ := eraseLoop_eq request.deleted hq
    rw [processUpdateRequest_of_ok hok, hloop, held_of_entry hq', hheld]
    constructor
    · rintro (⟨-, segments, hsegments, hfilter⟩ | ⟨e, he, -⟩)
      · obtain rfl := hload.unique hsegments
        refine Or.inl ⟨loaded, hload, hsizes, fun s hs => ?_⟩
        have hkept := List.filter_eq_self.mp hfilter.symm s hs
        simpa only [decide_eq_true_eq] using hkept
      · cases he
    · rintro (⟨segments, hsegments, -, hkept⟩ | hbad)
      · obtain rfl := hload.unique hsegments
        refine Or.inl ⟨rfl, loaded, hload, (List.filter_eq_self.mpr fun s hs => ?_).symm⟩
        simpa only [decide_eq_true_eq] using hkept s hs
      · exact absurd hload hbad.not_loads
  · rw [processUpdateRequest_of_error herr, held_of_entry hq, hheld]
    constructor
    · rintro (⟨hok, -⟩ | ⟨e', he, hexc, hsame⟩)
      · cases hok
      · cases he
        exact Or.inr (hfirst.mp ⟨hexc, by simpa using hsame⟩)
    · rintro (⟨segments, hsegments, hsizes, -⟩ | hbad)
      · exact absurd hsizes (hnone segments hsegments)
      · obtain ⟨hexc, rfl⟩ := hfirst.mpr hbad
        exact Or.inr ⟨e, rfl, hexc, List.append_nil _⟩

end Update

/-! ## Shards over a run -/

/-- The process has an index for every configured shard, and all its indexes are whole. -/
structure Stocked (configured : List (String × String)) (p : SearcherProcess B) : Prop where
  filled : ∀ i sh, (i, sh) ∈ configured → ∃ index, p.entry i sh = some index
  rooted : ∀ i sh index, p.entry i sh = some index → index.Rooted

namespace Stocked

variable {configured : List (String × String)} {q : SearcherProcess B}

theorem congr (h : Stocked configured p) (hsame : ∀ j t, q.entry j t = p.entry j t) :
    Stocked configured q := by
  refine ⟨fun j t hc => ?_, fun j t index hindex => ?_⟩
  · rw [hsame]
    exact h.filled j t hc
  · rw [hsame] at hindex
    exact h.rooted j t index hindex

theorem setEntry (h : Stocked configured p) {index : Index B Text} (hroot : index.Rooted)
    (i sh : String) : Stocked configured (p.setEntry i sh (some index)) := by
  refine ⟨fun j t hc => ?_, fun j t index' hindex => ?_⟩
  · rw [entry_setEntry]
    split
    · exact ⟨index, rfl⟩
    · exact h.filled j t hc
  · rw [entry_setEntry] at hindex
    split at hindex
    · cases hindex
      exact hroot
    · exact h.rooted j t index' hindex

theorem called (h : Stocked configured p) (i sh : String) : Stocked configured (p.called i sh) :=
  h.congr (entry_called p i sh)

theorem call (h : Stocked configured p) (i sh : String)
    {f : Index B Text → Except Fault (Index B Text)}
    (hf : ∀ index index', index.Rooted → f index = .ok index' → index'.Rooted) :
    Stocked configured (p.call i sh f).2 := by
  rcases call_cases p i sh f with
    ⟨-, hcall⟩ | ⟨_, _, -, -, hcall⟩ | ⟨index, index', hentry, hok, hcall⟩
  · rw [hcall]
    exact h.called i sh
  · rw [hcall]
    exact h.called i sh
  · rw [hcall]
    exact (h.called i sh).setEntry (hf index index' (h.rooted i sh index hentry) hok) i sh

theorem pushAdded (h : Stocked configured p) (platform : Platform B) (store : Store)
    (request : UpdateRequest) (id : Nat) :
    Stocked configured (p.pushAdded platform store request id).2 := by
  rcases hstep : p.pushAdded platform store request id with ⟨result, q⟩
  have hround := pushAdded_round platform store request p id
  rw [hstep] at hround
  have hfetch : Stocked configured (p.getObject platform store request.indexId id) :=
    h.congr fun _ _ => rfl
  cases hround with
  | missing => exact hfetch
  | unreadable => exact hfetch
  | fatal => exact hfetch.called _ _
  | done hfile hread hentry hpush =>
    have hroot := (h.rooted _ _ _ hentry).pushSegment hpush
    exact ((hfetch.called _ _).setEntry hroot _ _).congr fun _ _ => rfl

theorem processUpdateRequest (h : Stocked configured p) (platform : Platform B) (store : Store)
    (request : UpdateRequest) :
    Stocked configured (p.processUpdateRequest platform store request).2 := by
  have hpushed : Stocked configured
      (foldStop (SearcherProcess.pushAdded platform store request) request.added p).2 :=
    foldStop_keeps (fun _ id _ hq => hq.pushAdded platform store request id) h
  rcases hloop : foldStop (SearcherProcess.pushAdded platform store request) request.added p with
    ⟨_ | _, q⟩
  · rw [hloop] at hpushed
    rwa [processUpdateRequest_of_error hloop]
  · rw [hloop] at hpushed
    rw [processUpdateRequest_of_ok hloop]
    refine foldStop_keeps (fun _ id _ hq => hq.call _ _ fun index index' hroot hok => ?_) hpushed
    cases hok
    rwa [Index.eraseSegment_same]

end Stocked

/-! ## Searches over a run -/

section Search

variable [LinearOrder Dist]

/-- What every use of an entry keeps, the loop of a search keeps. -/
theorem searchEntries_keeps (rt : Runtime B Text Vec Dist) {request : SearchRequest Vec}
    {P : SearcherProcess B → Prop} {names : List String} {result : List Text}
    (step : ∀ q, ∀ t ∈ names, P q → P (q.use request.indexId t)) (hp : P p) :
    P (searchEntries rt request names result p).2 := by
  induction names generalizing p result with
  | nil => exact hp
  | cons t names ih =>
    have hused := step p t List.mem_cons_self hp
    rw [searchEntries, searchEntry]
    cases (p.use request.indexId t).entry request.indexId t with
    | none => exact hused
    | some index =>
      dsimp only
      rw [Index.search_eq]
      exact ih (fun q t' ht => step q t' (List.mem_cons_of_mem _ ht)) hused

/-- A search of one shard evaluates one subscript. -/
theorem processSearchRequest_of_some (rt : Runtime B Text Vec Dist) (order : IterOrder String)
    (p : SearcherProcess B) {request : SearchRequest Vec} {t : String}
    (hshard : request.shardId = some t) :
    (p.processSearchRequest rt order request).2 = p.called request.indexId t := by
  simp only [processSearchRequest, hshard, searchEntry]
  split <;> rfl

theorem processSearchRequest_of_none (rt : Runtime B Text Vec Dist) (order : IterOrder String)
    (p : SearcherProcess B) {request : SearchRequest Vec} (hshard : request.shardId = none) :
    p.processSearchRequest rt order request =
      searchEntries rt request (order.arrange (p.table request.indexId).keys) []
        (p.subscriptTable request.indexId) := by
  simp only [processSearchRequest, hshard, table_subscriptTable]

theorem Stocked.processSearchRequest {configured : List (String × String)}
    (h : Stocked configured p) (rt : Runtime B Text Vec Dist) (order : IterOrder String)
    (request : SearchRequest Vec) :
    Stocked configured (p.processSearchRequest rt order request).2 := by
  cases hshard : request.shardId with
  | some t =>
    rw [processSearchRequest_of_some rt order p hshard]
    exact h.called _ t
  | none =>
    rw [processSearchRequest_of_none rt order p hshard]
    refine searchEntries_keeps rt (fun q t _ hq => hq.congr fun _ _ => rfl) ?_
    exact h.congr fun j t => by simp only [entry, table_subscriptTable]

theorem answered_shards {α : Type} (result : Except Fault α × SearcherProcess B) :
    (answered result).shards = result.2.shards ∧ (answered result).used = result.2.used := by
  unfold answered
  split
  · exact ⟨rfl, rfl⟩
  · split <;> exact ⟨rfl, rfl⟩

end Search

/-! ## The table of shards -/

/-- The entries are the configured ones, none is null, and no other one was used. -/
structure Intact (configured : List (String × String)) (p : SearcherProcess B) : Prop where
  entries : ∀ i sh, p.Has i sh ↔ (i, sh) ∈ configured
  full : ∀ i sh, p.Has i sh → ∃ index, p.entry i sh = some index
  used : ∀ c ∈ p.used, c ∈ configured

/-- The names of the configured shards. -/
def configured (configs : List ShardConfig) : List (String × String) :=
  configs.map fun item => (item.indexId, item.shardId)

/-- The entry that the constructor makes for an item of the configuration. -/
theorem Intact.addShard {names : List (String × String)} (h : Intact names p)
    (rt : Runtime B Text Vec Dist) (item : ShardConfig) :
    Intact (names ++ [(item.indexId, item.shardId)]) (p.addShard rt item) := by
  have hhas := has_setEntry p item.indexId item.shardId
    (some (Index.create rt item.config false p.draws))
  have hentry := entry_setEntry p item.indexId item.shardId
    (some (Index.create rt item.config false p.draws))
  refine ⟨fun j t => (hhas j t).trans ?_, fun j t hj => ?_, fun c hc => ?_⟩
  · rw [h.entries, List.mem_append, List.mem_singleton, Prod.mk.injEq, or_comm]
  · by_cases heq : j = item.indexId ∧ t = item.shardId
    · exact ⟨_, (hentry j t).trans (if_pos heq)⟩
    · obtain ⟨index, hindex⟩ := h.full j t (((hhas j t).mp hj).resolve_left heq)
      exact ⟨index, (hentry j t).trans ((if_neg heq).trans hindex)⟩
  · exact List.mem_append_left _ (h.used c hc)

/-- The constructor makes the configured entries, each with an index of its own. -/
theorem create_intact (rt : Runtime B Text Vec Dist) (directory : Nat → Option Bytes)
    (configs : List ShardConfig) :
    Intact (configured configs) (create rt directory configs : SearcherProcess B) ∧
      Stocked (configured configs) (create rt directory configs : SearcherProcess B) := by
  have hall : ∀ (rest : List ShardConfig) (names : List (String × String))
      (p : SearcherProcess B), Intact names p → Stocked [] p →
      Intact (names ++ configured rest) (rest.foldl (SearcherProcess.addShard rt) p) ∧
        Stocked [] (rest.foldl (SearcherProcess.addShard rt) p) := by
    intro rest
    induction rest with
    | nil =>
      intro names p hp hstock
      rw [configured, List.map_nil, List.append_nil]
      exact ⟨hp, hstock⟩
    | cons item rest ih =>
      intro names p hp hstock
      have hroot : (Index.create rt item.config false p.draws).Rooted := fun _ hq =>
        (Shape.create rt item.config false p.draws).visited_alloc hq
      have hnext := ih _ _ (hp.addShard rt item)
        ((hstock.setEntry hroot item.indexId item.shardId).congr fun _ _ => rfl)
      rwa [List.append_assoc] at hnext
  obtain ⟨hintact, hstock⟩ := hall configs [] ⟨∅, directory, [], none, 0⟩
    ⟨fun _ _ => ⟨fun h => (by cases h), fun h => (by cases h)⟩, fun _ _ h => (by cases h),
      fun _ h => (by cases h)⟩
    ⟨fun _ _ h => (by cases h), fun _ _ _ h => (by cases h)⟩
  exact ⟨hintact, fun j t hc => hintact.full j t ((hintact.entries j t).mpr hc), hstock.rooted⟩

section Run

variable [LinearOrder Dist] {names : List (String × String)}

theorem Stocked.serve (h : Stocked names p) (rt : Runtime B Text Vec Dist) (platform : Platform B)
    (order : IterOrder String) (call : SearcherCall Vec) :
    Stocked names (p.serve rt platform order call) := by
  have hanswered : ∀ {α : Type} (result : Except Fault α × SearcherProcess B),
      Stocked names result.2 → Stocked names (answered result) := by
    intro α result hresult
    refine hresult.congr fun j t => ?_
    rw [entry, table, (answered_shards result).1, entry, table]
  unfold SearcherProcess.serve
  cases p.ended with
  | some _ => exact h
  | none =>
    cases call with
    | search request => exact hanswered _ (h.processSearchRequest rt order request)
    | update store request => exact hanswered _ (h.processUpdateRequest platform store request)

theorem Stocked.run (h : Stocked names p) (rt : Runtime B Text Vec Dist) (platform : Platform B)
    (order : IterOrder String) (calls : List (SearcherCall Vec)) :
    Stocked names (p.run rt platform order calls) := by
  induction calls generalizing p with
  | nil => exact h
  | cons call calls ih => exact ih (h.serve rt platform order call)

/-- In every state that requests lead to, from any working directory, an update of a configured
shard is all or nothing exactly when all its segments can be had and none is to be deleted, or the
first file is one that cannot be read. -/
theorem all_or_nothing_iff (rt : Runtime B Text Vec Dist) (platform : Platform B)
    (order : IterOrder String) (directory : Nat → Option Bytes) (configs : List ShardConfig)
    (calls : List (SearcherCall Vec)) (store : Store) (request : UpdateRequest)
    (hshard : (request.indexId, request.shardId) ∈ configured configs) :
    AllOrNothing platform store ((create rt directory configs).run rt platform order calls)
        request ↔
      Carried platform store ((create rt directory configs).run rt platform order calls)
        request := by
  have hstock := (create_intact rt directory configs).2.run rt platform order calls
  obtain ⟨index, hentry⟩ := hstock.filled _ _ hshard
  exact allOrNothing_of_entry hentry (hstock.rooted _ _ index hentry)

end Run

/-- A store with one segment file, and an object that is none. -/
def halfStore : Store :=
  (AList.singleton (4, 7)
    (serializeSegment (lineRuntime Text id) lineFiles zeroByteSegment)).insert (4, 8) []

/-- A searcher with one shard that found its directory empty, after some requests. -/
def eastProcess (calls : List (SearcherCall Nat)) : SearcherProcess (List Nat) :=
  (create (lineRuntime Text id) (fun _ => none) [⟨"docs", "east", unitConfig false⟩]).run
    (lineRuntime Text id) linePlatform (.insertion _) calls

/-- What the searcher answers to an update and the ids of the segments it then holds. -/
def eastUpdate (calls : List (SearcherCall Nat)) (request : UpdateRequest) : Bool × List Nat :=
  let result := (eastProcess calls).processUpdateRequest linePlatform halfStore request
  (result.1.isOk, (result.2.held "docs" "east").map Segment.segId)

/-- The first segment stays although the answer is an error; a segment to be deleted stays although
the answer is OK. -/
theorem update_applied_in_part :
    ¬ AllOrNothing linePlatform halfStore (eastProcess []) ⟨[7, 8], [], "docs", "east"⟩ ∧
      ¬ AllOrNothing linePlatform halfStore
        (eastProcess [.update halfStore ⟨[7], [], "docs", "east"⟩]) ⟨[], [7], "docs", "east"⟩ := by
  have hhalf : eastUpdate [] ⟨[7, 8], [], "docs", "east"⟩ = (false, [7]) := by decide +kernel
  have hstays : eastUpdate [.update halfStore ⟨[7], [], "docs", "east"⟩] ⟨[], [7], "docs", "east"⟩ =
      (true, [7]) := by decide +kernel
  obtain ⟨herror, hseven⟩ := Prod.mk.inj hhalf
  obtain ⟨hfine, hkeeps⟩ := Prod.mk.inj hstays
  constructor
  · rintro (⟨hok, -⟩ | ⟨e, -, -, hsame⟩)
    · rw [hok] at herror
      cases herror
    · have hempty : ((eastProcess []).held "docs" "east").map Segment.segId = [] := by
        decide +kernel
      rw [hsame, hempty] at hseven
      cases hseven
  · rintro (⟨-, segments, -, hkept⟩ | ⟨e, herr, -⟩)
    · have hmem : 7 ∈ [7] := List.mem_cons_self
      rw [← hkeeps, hkept] at hmem
      obtain ⟨s, hs, hid⟩ := List.mem_map.mp hmem
      have hout := (List.mem_filter.mp hs).2
      simp [hid] at hout
    · rw [herr] at hfine
      cases hfine

/-- Two segment files for one index. -/
def pairStore : Store :=
  (AList.singleton (4, 7) (serializeSegment (lineRuntime Text id) lineFiles zeroByteSegment)).insert
    (4, 9) (serializeSegment (lineRuntime Text id) lineFiles { zeroByteSegment with segId := 9 })

/-- Two segments that are there are pushed, and one that is to be deleted is not held. -/
theorem all_or_nothing_iff_present :
    AllOrNothing linePlatform pairStore (eastProcess []) ⟨[7, 9], [8], "docs", "east"⟩ := by
  have hread : ∀ segId < 256 ^ 8, ∃ g, deserealizeSegment lineFiles (serializeSegment
      (lineRuntime Text id) lineFiles { zeroByteSegment with segId := segId }) =
        .ok (some g, []) ∧ g.segId = segId ∧ g.size = zeroByteSegment.size := by
    intro segId hid
    obtain ⟨g, hg, hgid, hsame, -⟩ := deserealizeSegment_serializeSegment (lineRuntime Text id)
      lineFiles (s := { zeroByteSegment with segId := segId }) hid zeroByteSegment_fits []
    rw [List.append_nil] at hg
    exact ⟨g, hg, hgid, hsame.size⟩
  obtain ⟨g, hg, hgid, hgsize⟩ := hread 7 (by decide)
  obtain ⟨g', hg', hgid', hgsize'⟩ := hread 9 (by decide)
  have hload : Loads linePlatform pairStore "docs" (eastProcess []).files [7, 9] [g, g'] :=
    .cons rfl hg (.cons rfl hg' (.nil _))
  have hall : ∀ s ∈ [g, g'], s.segId ≠ 8 ∧ s.size ≤ 2 ^ 63 := by
    simp only [List.forall_mem_cons, hgid, hgid', hgsize, hgsize']
    decide +kernel
  refine (all_or_nothing_iff (lineRuntime Text id) linePlatform (.insertion _) (fun _ => none)
    [⟨"docs", "east", unitConfig false⟩] [] pairStore ⟨[7, 9], [8], "docs", "east"⟩
    List.mem_cons_self).mpr (Or.inl ⟨[g, g'], hload, fun s hs => (hall s hs).2, fun s hs => ?_⟩)
  exact fun hdeleted => (hall s hs).1 (List.mem_singleton.mp hdeleted)

end SearcherProcess

end Vecodex
