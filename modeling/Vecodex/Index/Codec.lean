import Vecodex.Index.Segment
import Vecodex.Lib.Binary

/-!
# Segment files

`SerializeSegment` and `DeserealizeSegment` (`baselines/IndexFactory.h`), with the parts of
`baselines/faiss.h` and `include/Segment.h` they call. A segment file is the type of the segment,
the file of its base index, the fields of the wrapper, and the segment id. The ids of documents
are strings here, as in the whole application.

The file of the base index is written and read by the faiss library. `Files` stands for it, with
the one thing that is expected of it: it reads what it wrote and leaves the rest of the file.

A variable that is read without having a value, as `k` and `v` in the constructor of `FaissIndex` or
the id of a segment, holds what was in its memory (`Files.unset`).
-/

namespace Vecodex

open Lib

variable {B Vec Dist : Type}

/-- What the files of a process depend on: the files of the base index, the iteration orders of
`ids_` and `erased_`, and what is in memory that was not set. -/
structure Files (B : Type) where
  writeIndex : B → Bytes
  readIndex : Bytes → Option (B × Bytes)
  idsOrder : IterOrder (Σ _ : Text, Nat)
  erasedOrder : IterOrder Nat
  unset : Nat
  read_write : ∀ b rest, readIndex (writeIndex b ++ rest) = some (b, rest)

namespace FaissIndex

/-- `kFaissFlat` is 0; every other base index is taken for `kFaissHNSW`. -/
def getSegmentType {ID : Type} (f : FaissIndex B ID) : Nat :=
  match f.kind with
  | .flat => 0
  | .hnswFlat => 1
  | .hnsw => 1

def serializeIndex (rt : Runtime B Text Vec Dist) (files : Files B) (f : FaissIndex B Text) :
    Bytes :=
  files.writeIndex f.index ++ (word 8 f.nextId ++
    (word 8 f.ids.entries.length ++
      ((files.idsOrder.arrange f.ids.entries).flatMap (fun e => text e.1 ++ word 8 e.2) ++
    (word 8 f.invIds.entries.length ++
      ((rt.invOrder.arrange f.invIds.entries).flatMap (fun e => word 8 e.1 ++ text e.2) ++
    (word 8 f.erased.card ++
      (files.erasedOrder.arrange (elements f.erased)).flatMap (word 8)))))))

/-- One entry of `ids_`. -/
def readIdsEntry (unset : Nat) (bs : Bytes) : Option ((Σ _ : Text, Nat) × Bytes) :=
  (readText bs).bind fun k =>
    let v := readWord 8 unset k.2
    some (⟨k.1, v.1⟩, v.2)

/-- One entry of `inv_ids_`. -/
def readInvIdsEntry (unset : Nat) (bs : Bytes) : Option ((Σ _ : Nat, Text) × Bytes) :=
  let k := readWord 8 unset bs
  (readText k.2).bind fun v => some (⟨k.1, v.1⟩, v.2)

/-- The loop over `ids_`, after the number of its entries. -/
def readIds (unset : Nat) (bs : Bytes) : Option ((AList fun _ : Text => Nat) × Bytes) :=
  let sz := readWord 8 0 bs
  readLoop (readIdsEntry unset) (fun m e => m.insert e.1 e.2) sz.1 ∅ sz.2

/-- The loop over `inv_ids_`. -/
def readInvIds (unset : Nat) (bs : Bytes) : Option ((AList fun _ : Nat => Text) × Bytes) :=
  let sz := readWord 8 0 bs
  readLoop (readInvIdsEntry unset) (fun m e => m.insert e.1 e.2) sz.1 ∅ sz.2

/-- The loop over `erased_`. -/
def readErased (unset : Nat) (bs : Bytes) : Option (Finset Nat × Bytes) :=
  let sz := readWord 8 0 bs
  readLoop (fun bs => some (readWord 8 unset bs)) (fun s p => insert p s) sz.1 ∅ sz.2

/-- What the constructor of a wrapper reads behind the index section. -/
def readFields (unset : Nat) (kind : BaseKind) (index : B) (bs : Bytes) :
    Option (FaissIndex B Text × Bytes) :=
  let nextId := readWord 8 0 bs
  (readIds unset nextId.2).bind fun ids =>
    (readInvIds unset ids.2).bind fun invIds =>
      (readErased unset invIds.2).bind fun erased =>
        some ({ kind := kind, index := index, nextId := nextId.1, ids := ids.1, invIds := invIds.1,
                erased := erased.1 }, erased.2)

/-- The constructor of a wrapper from a file. It fails when `read_index` throws, or `resize` does
for a string. -/
def ofFile (files : Files B) (kind : BaseKind) (bs : Bytes) :
    Except Fault (FaissIndex B Text × Bytes) :=
  match files.readIndex bs with
  | none => .error .unreadable
  | some (index, bs) =>
    match readFields files.unset kind index bs with
    | none => .error .unreadable
    | some r => .ok r

end FaissIndex

namespace Segment

def serialize (rt : Runtime B Text Vec Dist) (files : Files B) (s : Segment B Text) : Bytes :=
  s.index.serializeIndex rt files ++ word 8 s.segId

/-- The constructor of a segment from a file. -/
def ofFile (files : Files B) (kind : BaseKind) (bs : Bytes) :
    Except Fault (Option (Segment B Text) × Bytes) := do
  let (index, bs) ← FaissIndex.ofFile files kind bs
  let segId := readWord 8 files.unset bs
  return (some { segId := segId.1, index := index }, segId.2)

end Segment

def serializeSegment (rt : Runtime B Text Vec Dist) (files : Files B) (s : Segment B Text) :
    Bytes :=
  word 4 s.index.getSegmentType ++ s.serialize rt files

/-- The segment of a file, null for a type that is not known. -/
def deserealizeSegment (files : Files B) (bs : Bytes) :
    Except Fault (Option (Segment B Text) × Bytes) :=
  let segType := readWord 4 0 bs
  if segType.1 = 0 then Segment.ofFile files .flat segType.2
  else if segType.1 = 1 then Segment.ofFile files .hnsw segType.2
  else .ok (none, segType.2)

end Vecodex
