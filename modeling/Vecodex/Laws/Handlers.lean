import Mathlib.Algebra.Order.Group.Multiset
import Vecodex.App.Handlers
import Vecodex.Laws.Holdings

/-!
# What update handlers side by side come to

Handlers share the working directory, and a file in it is named by a segment id. A handler that
shares no id with another has its files to itself: nobody else writes, empties or removes them. So
every handler pushes the segments that the object store delivers for its ids, whatever the others
do in between, and no push is lost, because a push is one step under the lock of the index.

`handle_alone` ties the stages to `processUpdateRequest`: a handler that is alone does what that
function does. `concurrent_updates` says what the shards hold when all handlers have returned, for
every schedule. It does not cover handlers that share an id: they can mix up their files, even when
they are for different indexes, because the id is all there is in the name.
-/

namespace Vecodex

open Lib SearcherProcess

variable {B T : Type}

theorem SearcherProcess.files_setFile_self (p : SearcherProcess B) (id : Nat)
    (content : Option Bytes) : (p.setFile id content).files id = content :=
  Function.update_self ..

theorem SearcherProcess.files_setFile_of_ne (p : SearcherProcess B) {id id' : Nat} (h : id' ≠ id)
    (content : Option Bytes) : (p.setFile id content).files id' = p.files id' :=
  Function.update_of_ne h ..

/-! ## Steps -/

/-- What a step of a handler can do. -/
inductive UpdateStep (platform : Platform B) (call : HandlerCall) (p : SearcherProcess B) :
    UpdateStage B → UpdateStage B → SearcherProcess B → Prop
  | fetched : UpdateStep platform call p (.fetch []) (.erase call.request.deleted) p
  | absent {id : Nat} {ids : List Nat}
    (hstore : call.store.lookup (platform.hash call.request.indexId, id) = none) :
    UpdateStep platform call p (.fetch (id :: ids)) (.read id ids) p
  | opened {file : Bytes} {id : Nat} {ids : List Nat}
    (hstore : call.store.lookup (platform.hash call.request.indexId, id) = some file) :
    UpdateStep platform call p (.fetch (id :: ids)) (.write file id ids) (p.setFile id (some []))
  | written {file : Bytes} {id : Nat} {ids : List Nat} :
    UpdateStep platform call p (.write file id ids) (.read id ids) (p.setFile id (some file))
  | missing {id : Nat} {ids : List Nat} (hfile : p.files id = none) :
    UpdateStep platform call p (.read id ids) (.returned (.error .missingObject))
      { p with ended := some .missingObject }
  | unreadable {id : Nat} {ids : List Nat} {file : Bytes} (hfile : p.files id = some file)
    (hread : deserealizeSegment platform.toFiles file = .error .unreadable) :
    UpdateStep platform call p (.read id ids) (.returned (.error .unreadable)) p
  | read {id : Nat} {ids : List Nat} {file rest : Bytes} {segment : Option (Segment B Text)}
    (hfile : p.files id = some file)
    (hread : deserealizeSegment platform.toFiles file = .ok (segment, rest)) :
    UpdateStep platform call p (.read id ids) (.push segment id ids) p
  | stuck {segment : Option (Segment B Text)} {id : Nat} {ids : List Nat} {e : Fault}
    (hstuck : ∀ index, p.entry call.request.indexId call.request.shardId = some index →
      ∀ s, segment = some s → ¬ s.size ≤ 2 ^ 63) :
    UpdateStep platform call p (.push segment id ids) (.returned (.error e))
      { p.called call.request.indexId call.request.shardId with ended := some e }
  | pushed {s : Segment B Text} {id : Nat} {ids : List Nat} {index index' : Index B Text}
    (hentry : p.entry call.request.indexId call.request.shardId = some index)
    (hpush : index.pushSegment s = .ok index') :
    UpdateStep platform call p (.push (some s) id ids) (.remove id ids)
      ((p.called call.request.indexId call.request.shardId).setEntry call.request.indexId
        call.request.shardId (some index'))
  | removed {id : Nat} {ids : List Nat} :
    UpdateStep platform call p (.remove id ids) (.fetch ids) (p.setFile id none)
  | lost {id : Nat} {ids : List Nat}
    (hentry : p.entry call.request.indexId call.request.shardId = none) :
    UpdateStep platform call p (.erase (id :: ids)) (.returned (.error .nullIndex))
      { p.called call.request.indexId call.request.shardId with ended := some .nullIndex }
  | erased {id : Nat} {ids : List Nat} {index : Index B Text}
    (hentry : p.entry call.request.indexId call.request.shardId = some index) :
    UpdateStep platform call p (.erase (id :: ids)) (.erase ids)
      ((p.called call.request.indexId call.request.shardId).setEntry call.request.indexId
        call.request.shardId (some index))
  | finished : UpdateStep platform call p (.erase []) (.returned (.ok ())) p

section Advance

variable {platform : Platform B} {call : HandlerCall} {p p' : SearcherProcess B}
variable {stage' : UpdateStage B}

theorem advance_fetch {id : Nat} {ids : List Nat}
    (h : p.advance platform call (.fetch (id :: ids)) = some (stage', p')) :
    UpdateStep platform call p (.fetch (id :: ids)) stage' p' := by
  simp only [advance] at h
  split at h
  · next hstore =>
    cases h
    exact .absent hstore
  · next file hstore =>
    cases h
    exact .opened hstore

theorem advance_read {id : Nat} {ids : List Nat}
    (h : p.advance platform call (.read id ids) = some (stage', p')) :
    UpdateStep platform call p (.read id ids) stage' p' := by
  simp only [advance] at h
  split at h
  · next hfile =>
    cases h
    exact .missing hfile
  · next file hfile =>
    split at h
    · next e hread =>
      obtain rfl := deserealizeSegment_eq_error hread
      cases h
      exact .unreadable hfile hread
    · next segment rest hread =>
      cases h
      exact .read hfile hread

theorem advance_push {segment : Option (Segment B Text)} {id : Nat} {ids : List Nat}
    (h : p.advance platform call (.push segment id ids) = some (stage', p')) :
    UpdateStep platform call p (.push segment id ids) stage' p' := by
  simp only [advance] at h
  -- the entry decides first, then the segment, then its size
  rcases call_cases p call.request.indexId call.request.shardId (pushFetched segment) with
    ⟨hnull, hcall⟩ | ⟨index, e, hentry, hf, hcall⟩ | ⟨index, index', hentry, hf, hcall⟩
  · rw [hcall] at h
    cases h
    refine .stuck fun index hindex => ?_
    rw [hnull] at hindex
    cases hindex
  · rw [hcall] at h
    cases segment with
    | none =>
      cases hf
      cases h
      exact .stuck fun _ _ s hs => by cases hs
    | some s =>
      obtain rfl := Index.pushSegment_eq_error hf
      cases h
      refine .stuck fun _ _ s' hs hsize => ?_
      cases hs
      obtain ⟨index', hok⟩ := (Index.pushSegment_ok_iff index s).mpr hsize
      rw [pushFetched, hok] at hf
      cases hf
  · rw [hcall] at h
    cases segment with
    | none => cases hf
    | some s =>
      cases h
      exact .pushed hentry hf

theorem advance_erase {id : Nat} {ids : List Nat}
    (h : p.advance platform call (.erase (id :: ids)) = some (stage', p')) :
    UpdateStep platform call p (.erase (id :: ids)) stage' p' := by
  simp only [advance, eraseDeleted] at h
  rcases call_cases p call.request.indexId call.request.shardId
    (fun index => .ok (index.eraseSegment id).2) with
    ⟨hnull, hcall⟩ | ⟨_, _, -, hf, -⟩ | ⟨index, index', hentry, hf, hcall⟩
  · rw [hcall] at h
    cases h
    exact .lost hnull
  · cases hf
  · rw [hcall] at h
    cases h
    rw [← Except.ok.inj hf, index.eraseSegment_same]
    exact .erased hentry

theorem advance_step {stage : UpdateStage B}
    (h : p.advance platform call stage = some (stage', p')) :
    UpdateStep platform call p stage stage' p' := by
  cases stage with
  | fetch ids =>
    cases ids with
    | nil =>
      cases h
      exact .fetched
    | cons id ids => exact advance_fetch h
  | write file id ids =>
    cases h
    exact .written
  | read id ids => exact advance_read h
  | push segment id ids => exact advance_push h
  | remove id ids =>
    cases h
    exact .removed
  | erase ids =>
    cases ids with
    | nil =>
      cases h
      exact .finished
    | cons id ids => exact advance_erase h
  | returned result => cases h

/-- A handler that has not returned has a next step. -/
theorem advance_eq_none {stage : UpdateStage B} (h : p.advance platform call stage = none) :
    ∃ result, stage = .returned result := by
  cases stage with
  | returned result => exact ⟨result, rfl⟩
  | fetch ids =>
    cases ids with
    | nil => cases h
    | cons id ids =>
      simp only [advance] at h
      split at h <;> cases h
  | write file id ids => cases h
  | read id ids =>
    simp only [advance] at h
    split at h
    · cases h
    · split at h <;> cases h
  | push segment id ids =>
    simp only [advance] at h
    split at h <;> cases h
  | remove id ids => cases h
  | erase ids =>
    cases ids with
    | nil => cases h
    | cons id ids =>
      simp only [advance] at h
      split at h <;> cases h

theorem nextUpdate_step {calls : T → HandlerCall} {t : T} {stage : UpdateStage B}
    (h : nextUpdate platform calls t stage p = some (stage', p')) :
    UpdateStep platform (calls t) p stage stage' p' := by
  unfold nextUpdate at h
  split at h
  · cases h
  · exact advance_step h

end Advance

/-! ## A handler that is alone -/

section Alone

variable {platform : Platform B} {calls : T → HandlerCall} {t : T}
variable {p q : SearcherProcess B}

/-- What a handler comes to in some of its own steps. -/
def Goes (platform : Platform B) (calls : T → HandlerCall) (t : T) :
    UpdateStage B × SearcherProcess B → UpdateStage B × SearcherProcess B → Prop :=
  Relation.ReflTransGen fun a b => nextUpdate platform calls t a.1 a.2 = some b

theorem Goes.single (hrun : p.ended = none) {stage : UpdateStage B}
    {b : UpdateStage B × SearcherProcess B}
    (h : p.advance platform (calls t) stage = some b) : Goes platform calls t (stage, p) b := by
  refine Relation.ReflTransGen.single ?_
  simp only [nextUpdate, hrun, h]

theorem Goes.trans {a b c : UpdateStage B × SearcherProcess B} (h : Goes platform calls t a b)
    (h' : Goes platform calls t b c) : Goes platform calls t a c :=
  Relation.ReflTransGen.trans h h'

/-- The body of a loop and the stage at its head belong together: a round of the one leads from the
other to itself, or to the end of the handler. -/
structure Carries (platform : Platform B) (calls : T → HandlerCall) (t : T)
    (head : UpdateStage B) (result : Except Fault Unit × SearcherProcess B)
    (start : UpdateStage B × SearcherProcess B) : Prop where
  ok : ∀ q, result = (.ok (), q) → Goes platform calls t start (head, q) ∧ q.ended = none
  error : ∀ e q, result = (.error e, q) → Goes platform calls t start (q.fail e)

namespace Carries

variable {head : UpdateStage B} {start : UpdateStage B × SearcherProcess B}

theorem of_ok (h : Goes platform calls t start (head, q)) (hrun : q.ended = none) :
    Carries platform calls t head (.ok (), q) start := by
  refine ⟨fun r hr => ?_, fun e r hr => by cases hr⟩
  cases hr
  exact ⟨h, hrun⟩

theorem of_error {e : Fault} (h : Goes platform calls t start (q.fail e)) :
    Carries platform calls t head (.error e, q) start := by
  refine ⟨fun r hr => (by cases hr), fun e' r hr => ?_⟩
  cases hr
  exact h

theorem foldStop {head : List Nat → UpdateStage B}
    {body : SearcherProcess B → Nat → Except Fault Unit × SearcherProcess B}
    (hbody : ∀ (p : SearcherProcess B) id ids, p.ended = none →
      Carries platform calls t (head ids) (body p id) (head (id :: ids), p))
    (hrun : p.ended = none) (ids : List Nat) :
    Carries platform calls t (head []) (Lib.foldStop body ids p) (head ids, p) := by
  induction ids generalizing p with
  | nil => exact of_ok Relation.ReflTransGen.refl hrun
  | cons id ids ih =>
    have hround := hbody p id ids hrun
    rcases hstep : body p id with ⟨e | _, q⟩
    · rw [foldStop_cons_error hstep]
      exact of_error (hround.error e q hstep)
    · rw [foldStop_cons_ok hstep]
      obtain ⟨hgoes, hq⟩ := hround.ok q hstep
      obtain ⟨hok, herror⟩ := ih hq
      exact ⟨fun r hr => ⟨hgoes.trans (hok r hr).1, (hok r hr).2⟩,
        fun e r hr => hgoes.trans (herror e r hr)⟩

end Carries

theorem SearcherProcess.ended_call (p : SearcherProcess B) (i sh : String)
    (f : Index B Text → Except Fault (Index B Text)) : (p.call i sh f).2.ended = p.ended := by
  rcases call_cases p i sh f with ⟨-, hcall⟩ | ⟨_, _, -, -, hcall⟩ | ⟨_, _, -, -, hcall⟩
  all_goals
    rw [hcall]
    exact (subscript_rest p i sh).2.2

/-- Opening the output file of `getObject` and writing it. -/
theorem goes_getObject (hrun : p.ended = none) (id : Nat) (ids : List Nat) :
    Goes platform calls t (.fetch (id :: ids), p)
      (.read id ids, p.getObject platform (calls t).store (calls t).request.indexId id) := by
  cases hstore : (calls t).store.lookup (platform.hash (calls t).request.indexId, id) with
  | none =>
    refine .single hrun ?_
    simp only [advance, hstore, getObject, fetched, Option.none_or, Function.update_eq_self]
  | some file =>
    have hopen : Goes platform calls t (.fetch (id :: ids), p)
        (.write file id ids, p.setFile id (some [])) := by
      refine .single hrun ?_
      simp only [advance, hstore]
    have hopened : (p.setFile id (some [])).ended = none := hrun
    refine hopen.trans (.single hopened ?_)
    simp only [advance, setFile, getObject, fetched, hstore, Option.some_or, Function.update_idem]

theorem carries_pushAdded (hrun : p.ended = none) (id : Nat) (ids : List Nat) :
    Carries platform calls t (.fetch ids)
      (p.pushAdded platform (calls t).store (calls t).request id) (.fetch (id :: ids), p) := by
  have hfetch : Goes platform calls t _ _ := goes_getObject hrun id ids
  have hg : (p.getObject platform (calls t).store (calls t).request.indexId id).ended = none := hrun
  unfold pushAdded
  dsimp only
  generalize p.getObject platform (calls t).store (calls t).request.indexId id = g at hfetch hg ⊢
  cases hfile : g.files id with
  | none =>
    refine .of_error (hfetch.trans (.single hg ?_))
    simp only [advance, hfile]
  | some file =>
    dsimp only
    cases hread : deserealizeSegment platform.toFiles file with
    | error e =>
      refine .of_error (hfetch.trans (.single hg ?_))
      simp only [advance, hfile, hread]
    | ok out =>
      obtain ⟨segment, rest⟩ := out
      dsimp only
      have hread' : Goes platform calls t (.read id ids, g) (.push segment id ids, g) := by
        refine .single hg ?_
        simp only [advance, hfile, hread]
      have hended := ended_call g (calls t).request.indexId (calls t).request.shardId
        (pushFetched segment)
      rcases hcall : g.call (calls t).request.indexId (calls t).request.shardId
        (pushFetched segment) with ⟨e | _, r⟩
      · refine .of_error (hfetch.trans (hread'.trans (.single hg ?_)))
        simp only [advance, hcall]
      · rw [hcall] at hended
        have hr : r.ended = none := hended.trans hg
        have hpush : Goes platform calls t (.push segment id ids, g) (.remove id ids, r) := by
          refine .single hg ?_
          simp only [advance, hcall]
        exact .of_ok (hfetch.trans (hread'.trans (hpush.trans (.single hr rfl)))) hr

theorem carries_eraseDeleted (hrun : p.ended = none) (id : Nat) (ids : List Nat) :
    Carries platform calls t (.erase ids) (p.eraseDeleted (calls t).request id)
      (.erase (id :: ids), p) := by
  have hended : (p.eraseDeleted (calls t).request id).2.ended = p.ended := ended_call ..
  rcases hcall : p.eraseDeleted (calls t).request id with ⟨e | _, r⟩
  · refine .of_error (.single hrun ?_)
    simp only [advance, hcall]
  · rw [hcall] at hended
    refine .of_ok (.single hrun ?_) (hended.trans hrun)
    simp only [advance, hcall]

/-- A handler comes to what `ProcessUpdateRequest` returns and leaves. -/
theorem goes_processUpdateRequest (hrun : p.ended = none) :
    Goes platform calls t (.fetch (calls t).request.added, p)
      (.returned (p.processUpdateRequest platform (calls t).store (calls t).request).1,
        answered (p.processUpdateRequest platform (calls t).store (calls t).request)) := by
  have hfirst : Carries platform calls t (.fetch []) _ _ :=
    Carries.foldStop (fun _ id ids hq => carries_pushAdded hq id ids) hrun (calls t).request.added
  rcases hloop : foldStop (pushAdded platform (calls t).store (calls t).request)
    (calls t).request.added p with ⟨e | _, q⟩
  · rw [processUpdateRequest_of_error hloop]
    exact hfirst.error e q hloop
  · rw [processUpdateRequest_of_ok hloop]
    obtain ⟨hgoes, hq⟩ := hfirst.ok q hloop
    have hsecond : Carries platform calls t (.erase []) _ _ :=
      Carries.foldStop (fun _ id ids hq => carries_eraseDeleted hq id ids) hq
        (calls t).request.deleted
    have hturn : Goes platform calls t (.fetch [], q) (.erase (calls t).request.deleted, q) :=
      .single hq rfl
    rcases hloop' : foldStop (eraseDeleted (calls t).request) (calls t).request.deleted q with
      ⟨e | _, r⟩
    · exact hgoes.trans (hturn.trans (hsecond.error e r hloop'))
    · obtain ⟨hend, hr⟩ := hsecond.ok r hloop'
      exact hgoes.trans (hturn.trans (hend.trans (.single hr rfl)))

variable [DecidableEq T]

/-- The turns of a handler that is alone are a call of `processUpdateRequest`. -/
theorem handle_alone (hrun : p.ended = none) :
    ∃ n, p.handle platform calls (List.replicate n t) =
      { shared := answered (p.processUpdateRequest platform (calls t).store (calls t).request)
        thread := Function.update (accept calls p).thread t (.returned
          (p.processUpdateRequest platform (calls t).store (calls t).request).1) } :=
  Threads.exists_turns (goes_processUpdateRequest hrun) (accept calls p).thread rfl

end Alone

/-! ## What is still to come -/

namespace UpdateStage

/-- The ids whose segments the handler has not pushed. -/
def left : UpdateStage B → List Nat
  | .fetch ids | .remove _ ids => ids
  | .write _ id ids | .read id ids | .push _ id ids => id :: ids
  | .erase _ | .returned _ => []

/-- The ids whose files the handler may still touch. -/
def ids : UpdateStage B → List Nat
  | .fetch ids => ids
  | .write _ id ids | .read id ids | .push _ id ids | .remove id ids => id :: ids
  | .erase _ | .returned _ => []

/-- A bound of the steps that the handler has still to take. -/
def work (call : HandlerCall) : UpdateStage B → Nat
  | .fetch ids => 5 * ids.length + call.request.deleted.length + 2
  | .write _ _ ids => 5 * ids.length + call.request.deleted.length + 6
  | .read _ ids => 5 * ids.length + call.request.deleted.length + 5
  | .push _ _ ids => 5 * ids.length + call.request.deleted.length + 4
  | .remove _ ids => 5 * ids.length + call.request.deleted.length + 3
  | .erase ids => ids.length + 1
  | .returned _ => 0

/-- The segments that the handler has still to push to a shard. -/
def owed (platform : Platform B) (call : HandlerCall) (i sh : String) (stage : UpdateStage B) :
    List (Segment B Text) :=
  if i = call.request.indexId ∧ sh = call.request.shardId then
    deliveries platform call.store call.request.indexId stage.left
  else []

/-- The handler will succeed, or has succeeded. -/
def Succeeds (platform : Platform B) (call : HandlerCall) (stage : UpdateStage B) : Prop :=
  (∀ id ∈ stage.left, delivered platform call.store call.request.indexId id ≠ none) ∧
    ∀ e, stage ≠ .returned (.error e)

/-- The file under the id, if there is one, cannot be read. -/
def Spoilt (platform : Platform B) (files : Nat → Option Bytes) (id : Nat) : Prop :=
  ∀ file, files id = some file → deserealizeSegment platform.toFiles file = .error .unreadable

/-- The files of the ids that come after the one at hand cannot be read. -/
def Clear (platform : Platform B) (files : Nat → Option Bytes) (id : Nat) (ids : List Nat) : Prop :=
  ∀ id' ∈ ids, id' ≠ id → Spoilt platform files id'

/-- What a handler knows of its files when nobody else touches them. -/
def Sound (platform : Platform B) (call : HandlerCall) (files : Nat → Option Bytes) :
    UpdateStage B → Prop
  | .fetch ids => ∀ id ∈ ids, Spoilt platform files id
  | .write file id ids =>
    call.store.lookup (platform.hash call.request.indexId, id) = some file ∧
      Clear platform files id ids
  | .read id ids =>
    (∀ file, call.store.lookup (platform.hash call.request.indexId, id) = some file →
        files id = some file) ∧
      (call.store.lookup (platform.hash call.request.indexId, id) = none →
        Spoilt platform files id) ∧
      Clear platform files id ids
  | .push segment id ids =>
    (∃ file rest, call.store.lookup (platform.hash call.request.indexId, id) = some file ∧
        deserealizeSegment platform.toFiles file = .ok (segment, rest)) ∧
      Clear platform files id ids
  | .remove id ids => Clear platform files id ids
  | .erase _ | .returned _ => True

section Files

variable {platform : Platform B} {call : HandlerCall} {files files' : Nat → Option Bytes}
variable {id : Nat} {ids : List Nat}

theorem succeeds_returned_iff {result : Except Fault Unit} :
    (UpdateStage.returned result : UpdateStage B).Succeeds platform call ↔ result = .ok () := by
  cases result with
  | error e => exact iff_of_false (fun h => h.2 e rfl) fun h => by cases h
  | ok a => exact iff_of_true ⟨List.forall_mem_nil _, fun _ he => by cases he⟩ rfl

theorem Spoilt.congr (h : Spoilt platform files id) (hsame : files' id = files id) :
    Spoilt platform files' id := by
  intro file hfile
  rw [hsame] at hfile
  exact h file hfile

theorem Clear.congr (h : Clear platform files id ids)
    (hsame : ∀ id' ∈ ids, id' ≠ id → files' id' = files id') : Clear platform files' id ids :=
  fun id' hid hne => (h id' hid hne).congr (hsame id' hid hne)

/-- What happens to the file at hand does not matter to those that come after it. -/
theorem Clear.update (h : Clear platform files id ids) (content : Option Bytes) :
    Clear platform (Function.update files id content) id ids :=
  h.congr fun _ _ hne => Function.update_of_ne hne ..

/-- A handler knows of no files but its own. -/
theorem Sound.congr {stage : UpdateStage B} (h : stage.Sound platform call files)
    (hsame : ∀ id ∈ stage.ids, files' id = files id) : stage.Sound platform call files' := by
  cases stage with
  | fetch ids => exact fun id hid => (h id hid).congr (hsame id hid)
  | write file id ids =>
    exact ⟨h.1, h.2.congr fun id' hid _ => hsame id' (List.mem_cons_of_mem _ hid)⟩
  | read id ids =>
    have hhand : files' id = files id := hsame id List.mem_cons_self
    refine ⟨fun file hstore => ?_, fun hstore => (h.2.1 hstore).congr hhand,
      h.2.2.congr fun id' hid _ => hsame id' (List.mem_cons_of_mem _ hid)⟩
    rw [hhand]
    exact h.1 file hstore
  | push segment id ids =>
    exact ⟨h.1, h.2.congr fun id' hid _ => hsame id' (List.mem_cons_of_mem _ hid)⟩
  | remove id ids => exact Clear.congr h fun id' hid _ => hsame id' (List.mem_cons_of_mem _ hid)
  | erase ids => trivial
  | returned result => trivial

end Files

end UpdateStage

open UpdateStage

/-! ## What a step keeps -/

namespace UpdateStep

variable {platform : Platform B} {call : HandlerCall} {p p' : SearcherProcess B}
variable {stage stage' : UpdateStage B}

theorem files_eq (h : UpdateStep platform call p stage stage' p') {id : Nat}
    (hid : id ∉ stage.ids) : p'.files id = p.files id := by
  cases h with
  | opened => exact p.files_setFile_of_ne (List.ne_of_not_mem_cons hid) _
  | written => exact p.files_setFile_of_ne (List.ne_of_not_mem_cons hid) _
  | removed => exact p.files_setFile_of_ne (List.ne_of_not_mem_cons hid) _
  | stuck => exact congrFun (files_called ..) id
  | pushed => exact congrFun (files_called ..) id
  | lost => exact congrFun (files_called ..) id
  | erased => exact congrFun (files_called ..) id
  | _ => rfl

theorem ids_subset (h : UpdateStep platform call p stage stage' p') : stage'.ids ⊆ stage.ids := by
  cases h with
  | removed => exact List.subset_cons_self ..
  | absent => exact List.Subset.refl _
  | opened => exact List.Subset.refl _
  | written => exact List.Subset.refl _
  | read => exact List.Subset.refl _
  | pushed => exact List.Subset.refl _
  | _ => exact List.nil_subset _

theorem work_lt (h : UpdateStep platform call p stage stage' p') :
    stage'.work call < stage.work call := by
  cases h <;> simp only [work, List.length_cons, List.length_nil] <;> omega

theorem going (h : UpdateStep platform call p stage stage' p') (result : Except Fault Unit) :
    stage ≠ .returned result := by
  rintro rfl
  cases h

/-- Only a handler that fails ends the process. -/
theorem ended_eq (h : UpdateStep platform call p stage stage' p') :
    p'.ended = p.ended ∨ ∃ e, stage' = .returned (.error e) := by
  cases h with
  | missing => exact Or.inr ⟨_, rfl⟩
  | unreadable => exact Or.inr ⟨_, rfl⟩
  | stuck => exact Or.inr ⟨_, rfl⟩
  | lost => exact Or.inr ⟨_, rfl⟩
  | pushed => exact Or.inl (subscript_rest ..).2.2
  | erased => exact Or.inl (subscript_rest ..).2.2
  | _ => exact Or.inl rfl

theorem sound (h : UpdateStep platform call p stage stage' p')
    (hsound : stage.Sound platform call p.files) : stage'.Sound platform call p'.files := by
  cases h with
  | @absent id ids hstore =>
    refine ⟨fun file hfile => ?_, fun _ => hsound id List.mem_cons_self,
      fun id' hid _ => hsound id' (List.mem_cons_of_mem _ hid)⟩
    rw [hstore] at hfile
    cases hfile
  | @opened file id ids hstore =>
    have hclear : Clear platform p.files id ids :=
      fun id' hid _ => hsound id' (List.mem_cons_of_mem _ hid)
    exact ⟨hstore, hclear.update _⟩
  | @written file id ids =>
    obtain ⟨hstore, hclear⟩ := hsound
    refine ⟨fun file' hstore' => ?_, fun hnone => ?_, hclear.update _⟩
    · rw [hstore] at hstore'
      cases hstore'
      exact p.files_setFile_self id _
    · rw [hstore] at hnone
      cases hnone
  | @read id ids file rest segment hfile hread =>
    obtain ⟨hsome, hnone, hclear⟩ := hsound
    refine ⟨⟨file, rest, ?_, hread⟩, hclear⟩
    -- a file that can be read came from the object store
    cases hstore : call.store.lookup (platform.hash call.request.indexId, id) with
    | none =>
      rw [hnone hstore file hfile] at hread
      cases hread
    | some file' => exact (hsome file' hstore).symm.trans hfile
  | pushed => exact Clear.congr hsound.2 fun id' _ _ => congrFun (files_called ..) id'
  | @removed id ids =>
    intro id' hid
    by_cases hne : id' = id
    · intro file hfile
      rw [hne, files_setFile_self] at hfile
      cases hfile
    · exact Clear.update hsound none id' hid hne
  | _ => trivial

end UpdateStep

/-! ## What a step brings -/

section Headway

variable {platform : Platform B} {call : HandlerCall} {p p' : SearcherProcess B}
variable {stage stage' : UpdateStage B}

/-- A step goes on, pushes the segment that the object store delivers for the id at hand, or fails
because it delivers none. -/
inductive Headway (platform : Platform B) (call : HandlerCall) (p : SearcherProcess B)
    (stage stage' : UpdateStage B) (p' : SearcherProcess B) : Prop
  | on (hentry : ∀ i sh, p'.entry i sh = p.entry i sh) (hleft : stage'.left = stage.left)
    (hresult : ∀ e, stage' ≠ .returned (.error e))
  | pushed {s : Segment B Text} {id : Nat} {index index' : Index B Text}
    (htarget : p.entry call.request.indexId call.request.shardId = some index)
    (hpush : index.pushSegment s = .ok index')
    (hentry : ∀ i sh, p'.entry i sh =
      if i = call.request.indexId ∧ sh = call.request.shardId then some index' else p.entry i sh)
    (hleft : stage.left = id :: stage'.left)
    (hsome : delivered platform call.store call.request.indexId id = some s)
    (hresult : ∀ e, stage' ≠ .returned (.error e))
  | failed {id : Nat} {ids : List Nat} {e : Fault} (hentry : ∀ i sh, p'.entry i sh = p.entry i sh)
    (hleft : stage.left = id :: ids)
    (hnone : delivered platform call.store call.request.indexId id = none)
    (hresult : stage' = .returned (.error e))

/-- A handler that nobody disturbs makes headway in every step. -/
theorem UpdateStep.headway (h : UpdateStep platform call p stage stage' p')
    (hsound : stage.Sound platform call p.files)
    (hfilled : ∃ index, p.entry call.request.indexId call.request.shardId = some index) :
    Headway platform call p stage stage' p' := by
  cases h with
  | @missing id ids hfile =>
    refine .failed (fun _ _ => rfl) rfl ?_ rfl
    cases hstore : call.store.lookup (platform.hash call.request.indexId, id) with
    | none => exact delivered_of_absent hstore
    | some file =>
      rw [hsound.1 file hstore] at hfile
      cases hfile
  | @unreadable id ids file hfile hread =>
    refine .failed (fun _ _ => rfl) rfl ?_ rfl
    cases hstore : call.store.lookup (platform.hash call.request.indexId, id) with
    | none => exact delivered_of_absent hstore
    | some file' =>
      rw [hsound.1 file' hstore] at hfile
      cases hfile
      exact delivered_of_unreadable hstore hread
  | @stuck segment id ids e hstuck =>
    obtain ⟨index, hindex⟩ := hfilled
    obtain ⟨⟨file, rest, hstore, hread⟩, -⟩ := hsound
    refine .failed (fun i sh => entry_called ..) rfl ?_ rfl
    rw [delivered_of_read hstore hread, Option.filter_eq_none_iff]
    intro s hs
    simpa only [decide_eq_true_eq] using hstuck index hindex s hs
  | @pushed s id ids index index' hentry hpush =>
    obtain ⟨⟨file, rest, hstore, hread⟩, -⟩ := hsound
    have hsize : s.size ≤ 2 ^ 63 := (Index.pushSegment_ok_iff index s).mp ⟨index', hpush⟩
    refine .pushed hentry hpush (fun i sh => ?_) rfl ?_ fun e he => by cases he
    · rw [entry_setEntry, entry_called]
    · rw [delivered_of_read hstore hread, Option.filter_some, if_pos (decide_eq_true hsize)]
  | lost hentry =>
    obtain ⟨index, hindex⟩ := hfilled
    rw [hentry] at hindex
    cases hindex
  | @erased id ids index hentry =>
    refine .on (fun i sh => ?_) rfl fun e he => by cases he
    rw [entry_setEntry, entry_called]
    split
    · next heq => rw [heq.1, heq.2, hentry]
    · rfl
  | _ => exact .on (fun _ _ => rfl) rfl fun e he => by cases he

namespace Headway

/-- A handler that makes headway succeeds after the step if and only if it did before. -/
theorem succeeds_iff (h : Headway platform call p stage stage' p')
    (hgoing : ∀ result, stage ≠ .returned result) :
    stage'.Succeeds platform call ↔ stage.Succeeds platform call := by
  cases h with
  | on _ hleft hresult =>
    rw [Succeeds, Succeeds, hleft]
    exact and_congr_right fun _ => iff_of_true hresult fun e => hgoing _
  | pushed _ _ _ hleft hsome hresult =>
    rw [Succeeds, Succeeds, hleft, List.forall_mem_cons, hsome]
    simp only [ne_eq, reduceCtorEq, not_false_eq_true, true_and]
    exact and_congr_right fun _ => iff_of_true hresult fun e => hgoing _
  | @failed id ids e _ hleft hnone hresult =>
    refine iff_of_false (fun hsucc => hsucc.2 e hresult) fun hsucc => ?_
    exact hsucc.1 id (hleft ▸ List.mem_cons_self) hnone

theorem stocked (h : Headway platform call p stage stage' p') {names : List (String × String)}
    (hstock : Stocked names p) : Stocked names p' := by
  cases h with
  | on hentry => exact hstock.congr hentry
  | @pushed s id index index' htarget hpush hentry =>
    have hroot : index'.Rooted := (hstock.rooted _ _ index htarget).pushSegment hpush
    refine (hstock.setEntry hroot call.request.indexId call.request.shardId).congr fun i sh => ?_
    rw [hentry, entry_setEntry]
  | failed hentry => exact hstock.congr hentry

/-- What a handler does not owe any more, the shard has. -/
theorem held_owed (h : Headway platform call p stage stage' p') {names : List (String × String)}
    (hstock : Stocked names p) (i sh : String) :
    (p'.held i sh : Multiset (Segment B Text)) + stage'.owed platform call i sh =
      p.held i sh + stage.owed platform call i sh := by
  cases h with
  | on hentry hleft => rw [held_congr (hentry i sh), owed, owed, hleft]
  | @pushed s id index index' htarget hpush hentry hleft hsome =>
    by_cases hshard : i = call.request.indexId ∧ sh = call.request.shardId
    · have hnew : p'.entry i sh = some index' := by rw [hentry, if_pos hshard]
      have hroot : index.Rooted := hstock.rooted _ _ index htarget
      rw [owed, owed, if_pos hshard, if_pos hshard, hleft, deliveries_of_some hsome,
        held_of_entry hnew, hshard.1, hshard.2, held_of_entry htarget,
        hroot.held_pushSegment hpush, Multiset.coe_add, Multiset.coe_add, List.append_assoc,
        List.singleton_append]
    · have hsame : p'.entry i sh = p.entry i sh := by rw [hentry, if_neg hshard]
      rw [owed, owed, if_neg hshard, if_neg hshard, held_congr hsame]
  | failed hentry hleft hnone hresult =>
    rw [held_congr (hentry i sh), owed, owed, hleft, deliveries_of_none hnone, hresult]
    rfl

end Headway

end Headway

/-! ## All handlers -/

section Handlers

variable {platform : Platform B} {calls : T → HandlerCall} {names : List (String × String)}

/-- Nobody disturbs a handler. -/
structure Undisturbed (platform : Platform B) (calls : T → HandlerCall)
    (names : List (String × String)) (c : Threads T (UpdateStage B) (SearcherProcess B)) :
    Prop where
  stocked : Stocked names c.shared
  sound : ∀ t, (c.thread t).Sound platform (calls t) c.shared.files
  own : ∀ t, (c.thread t).ids ⊆ (calls t).request.added
  result : ∀ t, (c.thread t).Succeeds platform (calls t) ↔
    ∀ id ∈ (calls t).request.added,
      delivered platform (calls t).store (calls t).request.indexId id ≠ none
  running : c.shared.ended ≠ none → ∃ t e, c.thread t = .returned (.error e)

theorem Undisturbed.accept (calls : T → HandlerCall) {p : SearcherProcess B}
    (hrun : p.ended = none) (hstock : Stocked names p) (hunread : Unread platform p) :
    Undisturbed platform calls names (accept calls p) where
  stocked := hstock
  sound := fun _ id _ file hfile => hunread id file hfile
  own := fun _ => List.Subset.refl _
  result := fun _ => and_iff_left fun _ he => by cases he
  running := fun hended => absurd hrun hended

/-- A handler that has not returned can go on while the process runs. -/
theorem returned_of_rest {c : Threads T (UpdateStage B) (SearcherProcess B)} {t : T}
    (hrun : c.shared.ended = none)
    (h : nextUpdate platform calls t (c.thread t) c.shared = none) :
    ∃ result, c.thread t = .returned result := by
  rw [nextUpdate, hrun] at h
  exact advance_eq_none h

variable [DecidableEq T]

theorem Undisturbed.step
    (htarget : ∀ t, ((calls t).request.indexId, (calls t).request.shardId) ∈ names)
    (hapart : ∀ t u, t ≠ u → (calls t).request.added.Disjoint (calls u).request.added)
    (c : Threads T (UpdateStage B) (SearcherProcess B)) (t : T) (stage : UpdateStage B)
    (p : SearcherProcess B) (h : Undisturbed platform calls names c)
    (hnext : nextUpdate platform calls t (c.thread t) c.shared = some (stage, p)) :
    Undisturbed platform calls names ⟨p, Function.update c.thread t stage⟩ := by
  have hstep := nextUpdate_step hnext
  have hhead := hstep.headway (h.sound t) (h.stocked.filled _ _ (htarget t))
  refine ⟨hhead.stocked h.stocked, ?_, ?_, ?_, fun hended => ?_⟩
  · -- the step is at a file of its own handler, so the others find theirs as they were
    refine (Function.forall_update_iff _ fun u l =>
      UpdateStage.Sound platform (calls u) p.files l).mpr ⟨hstep.sound (h.sound t), fun u hu => ?_⟩
    refine (h.sound u).congr fun id hid => hstep.files_eq fun hmine => ?_
    exact hapart u t hu (h.own u hid) (h.own t hmine)
  · refine (Function.forall_update_iff _ fun u (l : UpdateStage B) =>
      l.ids ⊆ (calls u).request.added).mpr ⟨?_, fun u _ => h.own u⟩
    exact List.Subset.trans hstep.ids_subset (h.own t)
  · refine (Function.forall_update_iff _ fun u l => Succeeds platform (calls u) l ↔
      ∀ id ∈ (calls u).request.added,
        delivered platform (calls u).store (calls u).request.indexId id ≠ none).mpr
      ⟨?_, fun u _ => h.result u⟩
    exact (hhead.succeeds_iff hstep.going).trans (h.result t)
  · rcases hstep.ended_eq with hsame | ⟨e, he⟩
    · obtain ⟨u, e, hfailed⟩ := h.running (hsame ▸ hended)
      have hu : u ≠ t := by
        rintro rfl
        exact hstep.going _ hfailed
      exact ⟨u, e, (Function.update_of_ne hu ..).trans hfailed⟩
    · exact ⟨t, e, (Function.update_self ..).trans he⟩

variable [Fintype T]

/-- When all handlers have returned, nobody owes a segment. -/
theorem held_of_returned {p : SearcherProcess B} (hrun : p.ended = none) (hstock : Stocked names p)
    (hunread : Unread platform p)
    (htarget : ∀ t, ((calls t).request.indexId, (calls t).request.shardId) ∈ names)
    (hapart : ∀ t u, t ≠ u → (calls t).request.added.Disjoint (calls u).request.added)
    (schedule : List T)
    (hall : ∀ t, ∃ result, (p.handle platform calls schedule).thread t = .returned result)
    (i sh : String) :
    (↑((p.handle platform calls schedule).shared.held i sh) : Multiset (Segment B Text)) =
      ↑(p.held i sh) + ∑ t, ↑(gained platform i sh
        (.update (calls t).store (calls t).request : SearcherCall Unit)) := by
  have hsum := Threads.run_conserves (Undisturbed.step htarget hapart)
    (fun q => (q.held i sh : Multiset (Segment B Text)))
    (fun t stage => (stage.owed platform (calls t) i sh : Multiset (Segment B Text)))
    (fun c t stage q hc hnext => ((nextUpdate_step hnext).headway (hc.sound t)
      (hc.stocked.filled _ _ (htarget t))).held_owed hc.stocked i sh)
    (Undisturbed.accept calls hrun hstock hunread) schedule
  have hnone : ∀ t, ((p.handle platform calls schedule).thread t).owed platform (calls t) i sh =
      [] := by
    intro t
    obtain ⟨result, hreturned⟩ := hall t
    rw [hreturned, owed]
    split <;> rfl
  rw [← handle] at hsum
  simp only [hnone, Multiset.coe_nil, Finset.sum_const_zero, add_zero] at hsum
  exact hsum

/-- Update handlers that share no segment id, in any interleaving. A handler that has returned was
successful if and only if the object store delivers all its segments, and only a handler that is
not ends the process. When all have returned, a shard holds what it held and what the object store
delivered to each of them, nothing twice and nothing lost; and they do all return, unless the
process ends. -/
theorem concurrent_updates (platform : Platform B) (calls : T → HandlerCall)
    (p : SearcherProcess B) (hrun : p.ended = none) (hstock : Stocked names p)
    (hunread : Unread platform p)
    (htarget : ∀ t, ((calls t).request.indexId, (calls t).request.shardId) ∈ names)
    (hapart : ∀ t u, t ≠ u → (calls t).request.added.Disjoint (calls u).request.added)
    (schedule : List T) :
    (∀ t result, (p.handle platform calls schedule).thread t = .returned result →
      (result = .ok () ↔ ∀ id ∈ (calls t).request.added,
        delivered platform (calls t).store (calls t).request.indexId id ≠ none)) ∧
    ((p.handle platform calls schedule).shared.ended ≠ none → ∃ t, ∃ id ∈ (calls t).request.added,
      delivered platform (calls t).store (calls t).request.indexId id = none) ∧
    ((∀ t, ∃ result, (p.handle platform calls schedule).thread t = .returned result) →
      ∀ i sh, (↑((p.handle platform calls schedule).shared.held i sh) : Multiset (Segment B Text)) =
        ↑(p.held i sh) + ∑ t, ↑(gained platform i sh
          (.update (calls t).store (calls t).request : SearcherCall Unit))) ∧
    ∃ rest, (p.handle platform calls (schedule ++ rest)).shared.ended ≠ none ∨
      ∀ t, ∃ result, (p.handle platform calls (schedule ++ rest)).thread t = .returned result := by
  have hstart := Undisturbed.accept calls hrun hstock hunread
  have hinv : Undisturbed platform calls names (p.handle platform calls schedule) :=
    Threads.run_keeps (Undisturbed.step htarget hapart) hstart schedule
  refine ⟨fun t result hreturned => ?_, fun hended => ?_, fun hall i sh => ?_, ?_⟩
  · rw [← hinv.result t, hreturned]
    exact succeeds_returned_iff.symm
  · obtain ⟨t, e, hfailed⟩ := hinv.running hended
    have hnot : ¬ (UpdateStage.returned (.error e) : UpdateStage B).Succeeds platform (calls t) :=
      fun hsucc => hsucc.2 e rfl
    rw [← hfailed, hinv.result t] at hnot
    push Not at hnot
    exact ⟨t, hnot⟩
  · exact held_of_returned hrun hstock hunread htarget hapart schedule hall i sh
  · have hless : ∀ t (stage : UpdateStage B) q stage' q',
        nextUpdate platform calls t stage q = some (stage', q') →
          stage'.work (calls t) < stage.work (calls t) :=
      fun _ _ _ _ _ hnext => (nextUpdate_step hnext).work_lt
    obtain ⟨rest, hrest⟩ := Threads.exists_rest hless (p.handle platform calls schedule)
    refine ⟨rest, or_iff_not_imp_left.mpr fun hended t => ?_⟩
    rw [handle, Threads.run_append] at hended ⊢
    exact returned_of_rest (not_not.mp hended) (hrest t)

end Handlers

/-- A request for each of the files. -/
def twoUpdates (second : Bool) : HandlerCall :=
  ⟨pairStore, ⟨[if second then 9 else 7], [], "docs", "east"⟩⟩

/-- The handlers of both requests can return, and then the shard holds both segments. -/
theorem concurrent_updates_two :
    ∃ schedule, (∀ t, ((eastProcess []).handle linePlatform twoUpdates schedule).thread t =
        .returned (.ok ())) ∧
      (((eastProcess []).handle linePlatform twoUpdates schedule).shared.held "docs" "east" :
        Multiset (Segment (List Nat) Text)).map Segment.segId = {7, 9} := by
  have hstock : Stocked [("docs", "east")] (eastProcess []) :=
    (create_intact (lineRuntime Text id) _ [⟨"docs", "east", unitConfig false⟩]).2
  have hunread : Unread linePlatform (eastProcess []) :=
    create_unread (unreadFiles_empty _) (lineRuntime Text id) [⟨"docs", "east", unitConfig false⟩]
  have hdelivered : ∀ t, ∀ id ∈ (twoUpdates t).request.added,
      delivered linePlatform (twoUpdates t).store (twoUpdates t).request.indexId id ≠ none := by
    decide +kernel
  have hapart : ∀ t u, t ≠ u →
      (twoUpdates t).request.added.Disjoint (twoUpdates u).request.added := by
    intro t u hne
    cases t <;> cases u <;> simp [twoUpdates] at hne ⊢
  have hlaw := concurrent_updates linePlatform twoUpdates (eastProcess []) rfl hstock hunread
    (by decide) hapart
  obtain ⟨-, -, -, schedule, hrest⟩ := hlaw []
  rw [List.nil_append] at hrest
  obtain ⟨hresult, hended, hheld, -⟩ := hlaw schedule
  have hall := hrest.resolve_left fun hends => by
    obtain ⟨t, id, hid, hnone⟩ := hended hends
    exact hdelivered t id hid hnone
  refine ⟨schedule, fun t => ?_, ?_⟩
  · obtain ⟨result, hreturned⟩ := hall t
    rw [hreturned, (hresult t result hreturned).mpr (hdelivered t)]
  · rw [hheld hall]
    decide +kernel

/-- Files under one id for two indexes. -/
def mixedStore : Store :=
  (AList.singleton (4, 7) (serializeSegment (lineRuntime Text id) lineFiles zeroByteSegment)).insert
    (5, 7) (serializeSegment (lineRuntime Text id) lineFiles
      { zeroByteSegment with index := { zeroByteSegment.index with index := [30, 40] } })

/-- A request for each of the indexes. -/
def mixedUpdates (second : Bool) : HandlerCall :=
  ⟨mixedStore, ⟨[7], [], if second then "notes" else "docs", "east"⟩⟩

-- Both files go through one name, so the first index can get the segment of the second.
example :
    (((create (lineRuntime Text id) (fun _ => none) [⟨"docs", "east", unitConfig false⟩,
      ⟨"notes", "east", unitConfig false⟩]).handle linePlatform mixedUpdates
        [false, false, true, true, false, false]).shared.held "docs" "east").map
          (fun s => s.index.index) = [[30, 40]] := by
  decide +kernel

end Vecodex
