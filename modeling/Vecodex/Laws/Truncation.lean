import Vecodex.Laws.Codec

/-!
# Truncated segment files

`readBinary` does not look at what `fread` returns, so a file that ends too early is noticed only by
the faiss library. A segment file that is cut off is rejected exactly when the cut is before the end
of its index section (`truncated_rejected_iff`). Behind it the lengths that are missing read as
zero, so an erased document can be back (`cut_file_accepted`), and the id of the segment is whatever
was in memory. The lengths of strings never get larger by a cut, so none of them is refused.

That `read_index` fails on a part of an index section is an assumption about the library
(`Files.Guarded`).
-/

namespace Vecodex

open Lib

variable {B Vec Dist : Type}

/-- The faiss library notices the end of a file inside an index section. -/
structure Files.Guarded (files : Files B) : Prop where
  nonempty : ∀ b, files.writeIndex b ≠ []
  truncated : ∀ b bs, bs <+: files.writeIndex b → bs ≠ files.writeIndex b →
    files.readIndex bs = none

/-! ## Reading the parts -/

theorem Segment.ofFile_of_none {files : Files B} {kind : BaseKind} {bs : Bytes}
    (h : files.readIndex bs = none) : Segment.ofFile files kind bs = .error .unreadable := by
  simp only [Segment.ofFile, FaissIndex.ofFile, h]
  rfl

namespace FaissIndex

theorem tolerates_readIdsEntry (unset : Nat) (e : Σ _ : Text, Nat) :
    Tolerates (readIdsEntry unset) (text e.1 ++ word 8 e.2) := by
  have hread := (tolerates_text e.1).bind fun k rest bs h =>
    (tolerates_word 8 unset e.2).map (fun v => (⟨k, v⟩ : Σ _ : Text, Nat)) rest bs h
  exact hread

theorem tolerates_readInvIdsEntry (unset : Nat) (e : Σ _ : Nat, Text) :
    Tolerates (readInvIdsEntry unset) (word 8 e.1 ++ text e.2) := by
  have hread := (tolerates_word 8 unset e.1).bind fun k =>
    (tolerates_text e.2).map fun v => (⟨k, v⟩ : Σ _ : Nat, Text)
  exact hread

section Sections

variable {f : FaissIndex B Text}

theorem tolerates_readIds (hf : f.Fits) (unset : Nat) (order : IterOrder (Σ _ : Text, Nat)) :
    Tolerates (readIds unset) (word 8 f.ids.entries.length ++
      (order.arrange f.ids.entries).flatMap fun e => text e.1 ++ word 8 e.2) := by
  have hlen := (order.perm f.ids.entries).length_eq
  have hfits := hf.ids_length
  rw [← hlen] at hfits ⊢
  exact tolerates_counted (tolerates_readIdsEntry unset) _ hfits ∅

theorem tolerates_readInvIds (hf : f.Fits) (unset : Nat) (order : IterOrder (Σ _ : Nat, Text)) :
    Tolerates (readInvIds unset) (word 8 f.invIds.entries.length ++
      (order.arrange f.invIds.entries).flatMap fun e => word 8 e.1 ++ text e.2) := by
  have hlen := (order.perm f.invIds.entries).length_eq
  have hfits := hf.invIds_length
  rw [← hlen] at hfits ⊢
  exact tolerates_counted (tolerates_readInvIdsEntry unset) _ hfits ∅

theorem tolerates_readErased (hf : f.Fits) (unset : Nat) (order : IterOrder Nat) :
    Tolerates (readErased unset)
      (word 8 f.erased.card ++ (order.arrange (elements f.erased)).flatMap (word 8)) := by
  have hlen := (order.perm (elements f.erased)).length_eq
  have hfits := hf.erased_card
  rw [← length_elements, ← hlen] at hfits ⊢
  exact tolerates_counted (tolerates_word 8 unset) _ hfits ∅

/-- What follows the index section of a file. -/
def fieldBytes (rt : Runtime B Text Vec Dist) (files : Files B) (f : FaissIndex B Text) : Bytes :=
  word 8 f.nextId ++
    ((word 8 f.ids.entries.length ++
      (files.idsOrder.arrange f.ids.entries).flatMap fun e => text e.1 ++ word 8 e.2) ++
    ((word 8 f.invIds.entries.length ++
      (rt.invOrder.arrange f.invIds.entries).flatMap fun e => word 8 e.1 ++ text e.2) ++
    (word 8 f.erased.card ++ (files.erasedOrder.arrange (elements f.erased)).flatMap (word 8))))

theorem serializeIndex_eq (rt : Runtime B Text Vec Dist) (files : Files B) :
    f.serializeIndex rt files = files.writeIndex f.index ++ f.fieldBytes rt files := by
  simp only [serializeIndex, fieldBytes, List.append_assoc]

theorem tolerates_readFields (hf : f.Fits) (rt : Runtime B Text Vec Dist) (files : Files B)
    (kind : BaseKind) (b : B) :
    Tolerates (readFields files.unset kind b) (f.fieldBytes rt files) := by
  have hread := (tolerates_word 8 0 f.nextId).bind fun nextId =>
    (tolerates_readIds hf files.unset files.idsOrder).bind fun ids =>
      (tolerates_readInvIds hf files.unset rt.invOrder).bind fun invIds =>
        (tolerates_readErased hf files.unset files.erasedOrder).map fun erased =>
          (⟨kind, b, nextId, ids, invIds, erased⟩ : FaissIndex B Text)
  exact hread

end Sections

end FaissIndex

/-- Once the index section is read, there is a segment, however much follows of the file. -/
theorem Segment.ofFile_of_cut (rt : Runtime B Text Vec Dist) {files : Files B}
    {s : Segment B Text} (hf : s.index.Fits) {rest : Bytes}
    (hpre : rest <+: s.index.fieldBytes rt files ++ word 8 s.segId) (kind : BaseKind) :
    ∃ g left, Segment.ofFile files kind (files.writeIndex s.index.index ++ rest) =
      .ok (some g, left) := by
  obtain ⟨g, left, hread, -⟩ :=
    FaissIndex.tolerates_readFields hf rt files kind s.index.index _ rest hpre
  simp only [Segment.ofFile, FaissIndex.ofFile, files.read_write, hread]
  exact ⟨_, _, rfl⟩

/-- A file that ends inside the type is read as a file of a known type with nothing behind it. -/
theorem deserealizeSegment_of_short (files : Files B) (f : FaissIndex B Text) {bs : Bytes}
    (hpre : bs <+: word 4 f.getSegmentType) (h : bs.length < 4) :
    ∃ kind, deserealizeSegment files bs = Segment.ofFile files kind [] := by
  have hle : (readWord 4 0 bs).1 ≤ f.getSegmentType :=
    readWord_le_of_cut (hpre.trans (List.prefix_append _ []))
  have hnone : (readWord 4 0 bs).2 = [] := readWord_rest_nil 0 h.le
  have htype : f.getSegmentType ≤ 1 := by
    unfold FaissIndex.getSegmentType
    split <;> decide
  simp only [deserealizeSegment, hnone]
  split
  · exact ⟨.flat, rfl⟩
  · next hflat =>
    have hone : (readWord 4 0 bs).1 = 1 := by omega
    rw [if_pos hone]
    exact ⟨.hnsw, rfl⟩

/-! ## Cut files -/

/-- Where the file is cut decides what happens: before the end of the index section there is an
error, behind it a segment. -/
theorem deserealizeSegment_prefix (rt : Runtime B Text Vec Dist) {files : Files B}
    (guarded : files.Guarded) {s : Segment B Text} (hf : s.index.Fits) {bs : Bytes}
    (hpre : bs <+: serializeSegment rt files s) :
    (bs.length < 4 + (files.writeIndex s.index.index).length ∧
      deserealizeSegment files bs = .error .unreadable) ∨
    (4 + (files.writeIndex s.index.index).length ≤ bs.length ∧
      ∃ g left, deserealizeSegment files bs = .ok (some g, left)) := by
  have htype : (word 4 s.index.getSegmentType).length = 4 := word_length 4 _
  simp only [serializeSegment, Segment.serialize, FaissIndex.serializeIndex_eq, List.append_assoc]
    at hpre
  cases prefix_append_cases hpre with
  | inl hshort =>
    have hempty : files.readIndex [] = none :=
      guarded.truncated s.index.index [] List.nil_prefix (guarded.nonempty _).symm
    have hlen : bs.length < 4 := by simpa only [htype] using hshort.2
    obtain ⟨kind, hkind⟩ := deserealizeSegment_of_short files s.index hshort.1 hlen
    refine .inl ⟨by omega, ?_⟩
    rw [hkind, Segment.ofFile_of_none hempty]
  | inr htail =>
    obtain ⟨tail, rfl, htail⟩ := htail
    obtain ⟨kind, -, hkind⟩ := deserealizeSegment_type files s.index tail
    rw [hkind, List.length_append, htype]
    cases prefix_append_cases htail with
    | inl hcut =>
      have hne : tail ≠ files.writeIndex s.index.index := by
        intro heq
        simp only [heq, Nat.lt_irrefl, and_false] at hcut
      exact .inl ⟨by omega, Segment.ofFile_of_none (guarded.truncated _ tail hcut.1 hne)⟩
    | inr hbehind =>
      obtain ⟨rest, rfl, hrest⟩ := hbehind
      refine .inr ⟨by simp only [List.length_append]; omega, ?_⟩
      exact Segment.ofFile_of_cut rt hf hrest kind

/-! ## Points on a line -/

theorem readUnary_none {bs : Bytes} (h : ∀ b ∈ bs, b = 1 ∨ b = 0) (n : Nat) (done : List Nat) :
    readUnary n done bs = none := by
  induction bs generalizing n done with
  | nil => rfl
  | cons b bs ih =>
    simp only [List.forall_mem_cons] at h
    unfold readUnary
    cases h.1 with
    | inl hone => rw [if_pos hone, ih h.2]
    | inr hzero => rw [if_neg (by simp [hzero]), if_pos hzero, ih h.2]

/-- The two at the end of the index section is missing in every part of it. -/
theorem lineFiles_guarded : lineFiles.Guarded where
  nonempty ns := by simp [lineFiles, writeUnary]
  truncated ns bs hpre hproper := by
    cases List.prefix_concat_iff.mp hpre with
    | inl hall => exact absurd hall hproper
    | inr hpart =>
      refine readUnary_none (fun b hb => ?_) 0 []
      have hmem := hpart.subset hb
      simp only [List.mem_flatMap, List.mem_append, List.mem_replicate, List.mem_singleton] at hmem
      obtain ⟨n, -, hone | hzero⟩ := hmem
      · exact .inl hone.2
      · exact .inr hzero

/-- The first bytes of the file of a segment with an erased document. -/
def cutFile (n : Nat) : Bytes :=
  (serializeSegment (lineRuntime Text id) lineFiles zeroByteSegment).take n

/-! ## Cuts that are noticed -/

/-- A part of a segment file is rejected if and only if it ends inside the type or the index
section. Otherwise it is taken for a segment. -/
theorem truncated_rejected_iff (rt : Runtime B Text Vec Dist) (files : Files B)
    (guarded : files.Guarded) (s : Segment B Text) (hf : s.index.Fits) (bs : Bytes)
    (hpre : bs <+: serializeSegment rt files s) :
    ((∃ fault, deserealizeSegment files bs = .error fault) ↔
      bs.length < 4 + (files.writeIndex s.index.index).length) ∧
    ((¬ ∃ fault, deserealizeSegment files bs = .error fault) →
      ∃ g left, deserealizeSegment files bs = .ok (some g, left)) := by
  cases deserealizeSegment_prefix rt guarded hf hpre with
  | inl hcut => simp [hcut]
  | inr hread =>
    obtain ⟨hlen, g, left, hg⟩ := hread
    simp [hg, hlen]

/-- A file that is cut inside its index section is rejected. -/
theorem truncated_rejected_iff_index :
    cutFile 20 <+: serializeSegment (lineRuntime Text id) lineFiles zeroByteSegment ∧
      ∃ fault, deserealizeSegment lineFiles (cutFile 20) = .error fault := by
  refine ⟨List.take_prefix _ _, ?_⟩
  refine (truncated_rejected_iff (lineRuntime Text id) lineFiles lineFiles_guarded zeroByteSegment
    zeroByteSegment_fits (cutFile 20) (List.take_prefix _ _)).1.mpr ?_
  decide +kernel

/-- The file has 151 bytes. Cut in front of the 24 bytes of the erased position and the segment id,
it is taken for a segment in which nothing is erased. -/
theorem cut_file_accepted :
    cutFile 127 <+: serializeSegment (lineRuntime Text id) lineFiles zeroByteSegment ∧
    cutFile 127 ≠ serializeSegment (lineRuntime Text id) lineFiles zeroByteSegment ∧
    1 ∈ zeroByteSegment.index.erased ∧
    ∃ r, deserealizeSegment lineFiles (cutFile 127) = .ok r ∧
      r.1.map (fun g => (g.index.invIds.lookup 1, g.index.erased)) =
        some (zeroByteSegment.index.invIds.lookup 1, ∅) := by
  refine ⟨List.take_prefix _ _, by decide +kernel, by decide, ?_⟩
  exact exists_ok (by decide +kernel)

end Vecodex
