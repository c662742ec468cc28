import Mathlib.Data.List.AList
import Mathlib.Data.List.Sort
import Mathlib.Data.Finset.Card
import Mathlib.Data.Prod.Lex
import Vecodex.Lib.Machine

/-!
# Segments and the base index wrapper

`FaissIndex` (`baselines/faiss.h`) wraps a base index of the faiss library. The base index knows
vectors by position; the wrapper keeps the ids of the positions in both directions and the set
of erased positions. `Segment` (`include/Segment.h`) is such a wrapper with a segment id.

The faiss library is not part of the repository, so the base index is a parameter: `BaseIndex`
lists the four calls the wrapper makes. `Runtime` gathers everything a run of the index depends
on and does not control: the base index, the values of `rand()`, and the iteration orders of
the unordered containers it walks through.

The arrays `ids` and `vectors` a caller passes side by side are one list of rows here, and
`faiss::idx_t` positions are naturals with `none` for -1.
-/

namespace Vecodex

open Lib

/-- The ways a call can fail to return to its caller. -/
inductive Fault
  /-- `std::runtime_error("Empty batch in adding")`. -/
  | emptyBatch
  /-- The failed downcast of a merge: the assertion of `mergeSegment`, or
  `std::runtime_error("Couldn't cast index into FaissIndex")`. -/
  | badCast
  /-- `std::out_of_range` from `std::unordered_map::at`. -/
  | outOfRange
  /-- `1ll << 64` in the search for a level, which has no defined value. -/
  | badShift
  /-- A loop that has not ended within the number of rounds the model allows it. -/
  | outOfFuel
  /-- A call through an empty `std::shared_ptr`. -/
  | nullIndex
  /-- A segment file that is read although the object store did not deliver it. -/
  | missingObject
  /-- An exception while a segment file is read: `faiss::read_index` throws on bytes that are no
  index, and `std::string::resize` on a length above `max_size()`. -/
  | unreadable
  /-- `std::runtime_error` of a client whose remote call does not return OK. -/
  | rpcFailed
  deriving DecidableEq, Repr

/-- The instances of the `BaseIndex` template argument. -/
inductive BaseKind
  | flat
  | hnswFlat
  | hnsw
  deriving DecidableEq, Repr

/-- The calls made into a base index: `B` are its states, `Vec` the vectors it stores. -/
structure BaseIndex (B Vec Dist : Type) where
  empty : B
  add : B → List Vec → B
  search : B → Vec → Nat → List (Dist × Option Nat)
  reconstruct : B → Nat → Vec

/-- What a run depends on besides its calls. -/
structure Runtime (B ID Vec Dist : Type) where
  faiss : BaseIndex B Vec Dist
  /-- The values of the successive calls of `rand()` in the process. -/
  rand : Nat → Nat
  /-- The iteration order of `inv_ids_`. -/
  invOrder : IterOrder (Σ _ : Nat, ID)
  /-- The iteration order of the results of one segment. -/
  resOrder : IterOrder (Σ _ : ID, Dist)

variable {B ID Vec Dist : Type} [DecidableEq ID]

/-! ## `FaissIndex` -/

@[ext] structure FaissIndex (B ID : Type) where
  kind : BaseKind
  index : B
  nextId : Nat
  ids : AList fun _ : ID => Nat
  invIds : AList fun _ : Nat => ID
  erased : Finset Nat

namespace FaissIndex

/-- The representation invariant of the wrapper: the positions bound to ids are the first
`nextId` ones, `ids` holds the greatest position of every id, and only bound positions are
erased. -/
structure Wf (f : FaissIndex B ID) : Prop where
  bound : ∀ p, p ∈ f.invIds ↔ p < f.nextId
  latest : ∀ x p, f.ids.lookup x = some p ↔
    f.invIds.lookup p = some x ∧ ∀ p', f.invIds.lookup p' = some x → p' ≤ p
  erased_lt : ∀ p ∈ f.erased, p < f.nextId

/-- A wrapper of an empty base index. -/
def create (rt : Runtime B ID Vec Dist) (kind : BaseKind) : FaissIndex B ID :=
  { kind := kind, index := rt.faiss.empty, nextId := 0, ids := ∅, invIds := ∅, erased := ∅ }

/-- One round of the loop of `add_batch`: the next position belongs to `x`. -/
def bindId (f : FaissIndex B ID) (x : ID) : FaissIndex B ID :=
  { f with ids := f.ids.insert x f.nextId, invIds := f.invIds.insert f.nextId x,
           nextId := f.nextId + 1 }

def addBatch (rt : Runtime B ID Vec Dist) (f : FaissIndex B ID) (batch : List (ID × Vec)) :
    FaissIndex B ID :=
  (batch.map Prod.fst).foldl bindId
    { f with index := rt.faiss.add f.index (batch.map Prod.snd) }

/-- One round of the loop of `erase_batch`: the position `ids_` holds for `x`, if any. -/
def eraseId (f : FaissIndex B ID) (x : ID) : FaissIndex B ID :=
  match f.ids.lookup x with
  | some p => { f with erased := insert p f.erased }
  | none => f

def eraseBatch (f : FaissIndex B ID) (ids : List ID) : FaissIndex B ID := ids.foldl eraseId f

/-- The rows `merge_from_other` copies: what `inv_ids_` lists and `erased_` does not, each with
the vector the base index reconstructs. -/
def survivors (rt : Runtime B ID Vec Dist) (f : FaissIndex B ID) : List (ID × Vec) :=
  ((rt.invOrder.arrange f.invIds.entries).filter fun e => e.1 ∉ f.erased).map fun e =>
    (e.2, rt.faiss.reconstruct f.index e.1)

def mergeFromOther (rt : Runtime B ID Vec Dist) (f other : FaissIndex B ID) :
    Except Fault (FaissIndex B ID) :=
  if f.kind ≠ other.kind then .error .badCast else .ok (f.addBatch rt (other.survivors rt))

/-- `ids_.size() - erased_.size()`, in `size_t`. -/
def size (f : FaissIndex B ID) : Nat := sizeT (f.ids.keys.length - f.erased.card)

variable [LinearOrder Dist]

/-- The candidates of `single_search`: base results whose position is bound and not erased. -/
def candidates (rt : Runtime B ID Vec Dist) (f : FaissIndex B ID) (k : Nat) (q : Vec) :
    List (Dist ×ₗ Nat) :=
  (rt.faiss.search f.index q (k + f.erased.card)).filterMap fun r =>
    match r.2 with
    | some p => if p ∈ f.invIds ∧ p ∉ f.erased then some (toLex (r.1, p)) else none
    | none => none

def singleSearch (rt : Runtime B ID Vec Dist) (f : FaissIndex B ID) (k : Nat) (q : Vec) :
    Except Fault (List (ID × Dist)) :=
  (((f.candidates rt k q).insertionSort (· ≤ ·)).take k).mapM fun r =>
    match f.invIds.lookup (ofLex r).2 with
    | some x => .ok (x, (ofLex r).1)
    | none => .error .outOfRange

end FaissIndex

/-! ## `Segment` -/

structure Segment (B ID : Type) where
  segId : Nat
  index : FaissIndex B ID

namespace Segment

def addVectorBatch (rt : Runtime B ID Vec Dist) (s : Segment B ID) (batch : List (ID × Vec)) :
    Segment B ID :=
  { s with index := s.index.addBatch rt batch }

def deleteBatch (s : Segment B ID) (ids : List ID) : Segment B ID :=
  { s with index := s.index.eraseBatch ids }

def mergeSegment (rt : Runtime B ID Vec Dist) (s other : Segment B ID) :
    Except Fault (Segment B ID) := do
  let index ← s.index.mergeFromOther rt other.index
  return { s with index := index }

def size (s : Segment B ID) : Nat := s.index.size

/-- The result map of one segment. The rows come in ascending distance, so the farthest of
several rows of one id is the one that stays in the map. -/
def searchQuery [LinearOrder Dist] (rt : Runtime B ID Vec Dist) (s : Segment B ID) (q : Vec)
    (k : Nat) : Except Fault (AList fun _ : ID => Dist) := do
  let ans ← s.index.singleSearch rt k q
  return ans.foldl (fun result e => result.insert e.1 e.2) ∅

end Segment

end Vecodex
