import Vecodex.Index.Codec
import Vecodex.Laws.Contents
import Vecodex.Laws.Total

/-!
# Laws of segment files

A segment file gives back the segment it was written from (`deserealizeSegment_serializeSegment`):
the segment id, the base index, and the fields of the wrapper with the same entries. The entries
may come in another order, so the wrappers are the same in the sense of `FaissIndex.Same`; nothing
a wrapper is asked depends on the difference. The type that is written does not tell the two HNSW
instances apart, and the wrapper that is read is of the base type.
-/

namespace Vecodex

open Lib

variable {B ID Vec Dist : Type} [DecidableEq ID]

namespace FaissIndex

/-- The same base index and the same entries. -/
structure Same (f g : FaissIndex B ID) : Prop where
  index : f.index = g.index
  nextId : f.nextId = g.nextId
  ids : f.ids.entries.Perm g.ids.entries
  invIds : f.invIds.entries.Perm g.invIds.entries
  erased : f.erased = g.erased

namespace Same

variable {f g : FaissIndex B ID}

theorem lookup_ids (h : f.Same g) (x : ID) : f.ids.lookup x = g.ids.lookup x :=
  AList.perm_lookup h.ids

omit [DecidableEq ID] in
theorem lookup_invIds (h : f.Same g) (p : Nat) : f.invIds.lookup p = g.invIds.lookup p :=
  AList.perm_lookup h.invIds

theorem wf (h : f.Same g) (hg : g.Wf) : f.Wf where
  bound p := by
    rw [AList.mem_of_perm h.invIds, h.nextId]
    exact hg.bound p
  latest x p := by
    simp only [h.lookup_ids, h.lookup_invIds]
    exact hg.latest x p
  erased_lt p hp := by
    rw [h.nextId]
    exact hg.erased_lt p (h.erased ▸ hp)

omit [DecidableEq ID] in
theorem liveAt_iff (h : f.Same g) (p : Nat) (x : ID) : f.LiveAt p x ↔ g.LiveAt p x := by
  unfold LiveAt
  rw [h.lookup_invIds, h.erased]

omit [DecidableEq ID] in
theorem size (h : f.Same g) : f.size = g.size := by
  have hids : f.ids.keys.length = g.ids.keys.length := (h.ids.map Sigma.fst).length_eq
  unfold FaissIndex.size
  rw [hids, h.erased]

omit [DecidableEq ID] in
theorem holds_iff {rt : Runtime B ID Vec Dist} (base : StoringBase rt.faiss) (h : f.Same g)
    (x : ID) (v : Vec) : f.Holds base x v ↔ g.Holds base x v := by
  unfold Holds LiveRow
  simp only [h.liveAt_iff, h.index]

end Same

/-- The numbers of a wrapper are values of their 64-bit types. -/
structure Fits (f : FaissIndex B ID) : Prop where
  nextId : f.nextId < 256 ^ 8
  ids_length : f.ids.entries.length < 256 ^ 8
  ids : ∀ e ∈ f.ids.entries, e.2 < 256 ^ 8
  invIds_length : f.invIds.entries.length < 256 ^ 8
  invIds : ∀ e ∈ f.invIds.entries, e.1 < 256 ^ 8
  erased_card : f.erased.card < 256 ^ 8
  erased : ∀ p ∈ f.erased, p < 256 ^ 8

/-- In a well-formed wrapper the number of positions bounds everything else. -/
theorem Wf.fits {f : FaissIndex B ID} (hf : f.Wf) (h : f.nextId < 256 ^ 8) : f.Fits := by
  have hpos : ∀ x p, f.ids.lookup x = some p → p < f.nextId := fun x p hx =>
    (hf.bound p).mp (AList.lookup_isSome.mp (by rw [((hf.latest x p).mp hx).1]; rfl))
  -- the positions of different ids are different
  have hids : f.ids.entries.length ≤ f.nextId := by
    have hinj : (f.ids.entries.map Sigma.snd).Nodup := by
      refine (f.ids.nodupKeys.nodup).map_on fun e he e' he' heq => ?_
      have hx := ((hf.latest e.1 e.2).mp (AList.mem_lookup_iff.mpr he)).1
      have hx' := ((hf.latest e'.1 e'.2).mp (AList.mem_lookup_iff.mpr he')).1
      obtain ⟨x, p⟩ := e
      obtain ⟨x', p'⟩ := e'
      obtain rfl : p = p' := heq
      obtain rfl : x = x' := Option.some.inj (hx.symm.trans hx')
      rfl
    have hcard := Finset.card_le_card (s := (f.ids.entries.map Sigma.snd).toFinset)
      (t := Finset.range f.nextId) fun p hp => by
        obtain ⟨e, he, rfl⟩ := List.mem_map.mp (List.mem_toFinset.mp hp)
        exact Finset.mem_range.mpr (hpos e.1 e.2 (AList.mem_lookup_iff.mpr he))
    rwa [List.toFinset_card_of_nodup hinj, Finset.card_range, List.length_map] at hcard
  have herased : f.erased.card ≤ f.nextId := by
    have hcard := Finset.card_le_card (s := f.erased) (t := Finset.range f.nextId) fun p hp =>
      Finset.mem_range.mpr (hf.erased_lt p hp)
    rwa [Finset.card_range] at hcard
  constructor
  · exact h
  · omega
  · exact fun e he => (hpos e.1 e.2 (AList.mem_lookup_iff.mpr he)).trans h
  · exact lt_of_le_of_lt hf.length_invIds_le h
  · exact fun e he => ((hf.bound e.1).mp (AList.mem_keys.mpr (List.mem_map_of_mem he))).trans h
  · omega
  · exact fun p hp => (hf.erased_lt p hp).trans h

end FaissIndex

/-! ## Reading what was written -/

theorem readIdsEntry_write {e : Σ _ : Text, Nat} (h : e.2 < 256 ^ 8) (unset : Nat) (rest : Bytes) :
    FaissIndex.readIdsEntry unset (text e.1 ++ word 8 e.2 ++ rest) = some (e, rest) := by
  simp only [FaissIndex.readIdsEntry, List.append_assoc, readText_text, Option.bind_some,
    readWord_word h]

theorem readInvIdsEntry_write {e : Σ _ : Nat, Text} (h : e.1 < 256 ^ 8) (unset : Nat)
    (rest : Bytes) :
    FaissIndex.readInvIdsEntry unset (word 8 e.1 ++ text e.2 ++ rest) = some (e, rest) := by
  simp only [FaissIndex.readInvIdsEntry, List.append_assoc, readWord_word h, readText_text,
    Option.bind_some]

/-- A loop over a rearranged container reads its entries. -/
theorem readLoop_arrange {α σ : Type} {read : Bytes → Option (α × Bytes)} {write : α → Bytes}
    {store : σ → α → σ} (order : IterOrder α) {as : List α}
    (h : ∀ a ∈ as, ∀ rest, read (write a ++ rest) = some (a, rest)) (s : σ) (rest : Bytes) :
    readLoop read store as.length s ((order.arrange as).flatMap write ++ rest) =
      some ((order.arrange as).foldl store s, rest) := by
  rw [← (order.perm as).length_eq]
  exact readLoop_flatMap (fun a ha => h a (order.mem_arrange.mp ha)) s rest

theorem foldl_insert_elements (order : IterOrder Nat) (s : Finset Nat) :
    (order.arrange (elements s)).foldl (fun s p => insert p s) ∅ = s := by
  have hmem : ∀ (l : List Nat) (t : Finset Nat) (p : Nat),
      p ∈ l.foldl (fun s p => insert p s) t ↔ p ∈ l ∨ p ∈ t := by
    intro l
    induction l with
    | nil => simp
    | cons q l ih =>
      intro t p
      rw [List.foldl_cons, ih, Finset.mem_insert, List.mem_cons]
      tauto
  ext p
  rw [hmem, order.mem_arrange, mem_elements]
  simp

namespace FaissIndex

section Sections

variable {f : FaissIndex B Text}

theorem readIds_write (hf : f.Fits) (unset : Nat) (rest : Bytes)
    (order : IterOrder (Σ _ : Text, Nat)) :
    readIds unset (word 8 f.ids.entries.length ++
      ((order.arrange f.ids.entries).flatMap (fun e => text e.1 ++ word 8 e.2) ++ rest)) =
      some (rebuild (order.arrange f.ids.entries), rest) := by
  simp only [readIds, readWord_word hf.ids_length]
  exact readLoop_arrange order (fun e he => readIdsEntry_write (hf.ids e he) unset) ∅ rest

theorem readInvIds_write (hf : f.Fits) (unset : Nat) (rest : Bytes)
    (order : IterOrder (Σ _ : Nat, Text)) :
    readInvIds unset (word 8 f.invIds.entries.length ++
      ((order.arrange f.invIds.entries).flatMap (fun e => word 8 e.1 ++ text e.2) ++ rest)) =
      some (rebuild (order.arrange f.invIds.entries), rest) := by
  simp only [readInvIds, readWord_word hf.invIds_length]
  exact readLoop_arrange order (fun e he => readInvIdsEntry_write (hf.invIds e he) unset) ∅ rest

theorem readErased_write (hf : f.Fits) (unset : Nat) (rest : Bytes) (order : IterOrder Nat) :
    readErased unset (word 8 f.erased.card ++
      ((order.arrange (elements f.erased)).flatMap (word 8) ++ rest)) = some (f.erased, rest) := by
  have hread : ∀ p ∈ elements f.erased, ∀ rest,
      (fun bs => some (readWord 8 unset bs)) (word 8 p ++ rest) = some (p, rest) :=
    fun p hp rest => congrArg some (readWord_word (hf.erased p (mem_elements.mp hp)) unset rest)
  simp only [readErased, readWord_word hf.erased_card]
  rw [← length_elements, readLoop_arrange order hread, foldl_insert_elements]

theorem ofFile_eq_error {files : Files B} {kind : BaseKind} {bs : Bytes} {e : Fault}
    (h : ofFile files kind bs = .error e) : e = .unreadable := by
  unfold ofFile at h
  split at h
  · exact (Except.error.inj h).symm
  · split at h
    · exact (Except.error.inj h).symm
    · cases h

/-- The type of the segment decides which wrapper is made. -/
theorem kind_of_ofFile {files : Files B} {kind : BaseKind} {bs rest : Bytes}
    {f : FaissIndex B Text} (h : ofFile files kind bs = .ok (f, rest)) : f.kind = kind := by
  unfold ofFile at h
  split at h
  · cases h
  · split at h
    · cases h
    · next r hread =>
      cases h
      obtain ⟨ids, -, hread⟩ := Option.bind_eq_some_iff.mp hread
      obtain ⟨invIds, -, hread⟩ := Option.bind_eq_some_iff.mp hread
      obtain ⟨erased, -, hread⟩ := Option.bind_eq_some_iff.mp hread
      cases hread
      rfl

theorem ofFile_serializeIndex (hf : f.Fits) (rest : Bytes) (rt : Runtime B Text Vec Dist)
    (files : Files B) (kind : BaseKind) :
    ∃ g, ofFile files kind (f.serializeIndex rt files ++ rest) = .ok (g, rest) ∧ g.Same f ∧
      g.kind = kind := by
  refine ⟨⟨kind, f.index, f.nextId, rebuild (files.idsOrder.arrange f.ids.entries),
    rebuild (rt.invOrder.arrange f.invIds.entries), f.erased⟩, ?_, ?_, rfl⟩
  · simp only [ofFile, serializeIndex, List.append_assoc, files.read_write, readFields,
      readWord_word hf.nextId, readIds_write hf, Option.bind_some, readInvIds_write hf,
      readErased_write hf]
  · exact ⟨rfl, rfl, perm_rebuild _ (files.idsOrder.perm _), perm_rebuild _ (rt.invOrder.perm _),
      rfl⟩

end Sections

theorem getSegmentType_lt {B ID : Type} (f : FaissIndex B ID) : f.getSegmentType < 256 ^ 4 := by
  unfold getSegmentType
  split <;> omega

end FaissIndex

/-- The type of a segment selects the constructor that reads the rest of its file. -/
theorem deserealizeSegment_type (files : Files B) (f : FaissIndex B Text) (bs : Bytes) :
    ∃ kind, (∀ g : FaissIndex B Text, g.kind = kind → g.getSegmentType = f.getSegmentType) ∧
      deserealizeSegment files (word 4 f.getSegmentType ++ bs) = Segment.ofFile files kind bs := by
  have hread : ∀ n < 2, readWord 4 0 (word 4 n ++ bs) = (n, bs) := fun n hn =>
    readWord_word (by omega) 0 bs
  unfold deserealizeSegment FaissIndex.getSegmentType
  cases f.kind with
  | flat =>
    refine ⟨.flat, fun g hg => by simp only [hg], ?_⟩
    simp only [hread 0 (by decide), if_true]
  | hnswFlat =>
    refine ⟨.hnsw, fun g hg => by simp only [hg], ?_⟩
    simp only [hread 1 (by decide), Nat.one_ne_zero, if_false, if_true]
  | hnsw =>
    refine ⟨.hnsw, fun g hg => by simp only [hg], ?_⟩
    simp only [hread 1 (by decide), Nat.one_ne_zero, if_false, if_true]

/-- A segment file gives back its segment and leaves what follows it unread. -/
theorem deserealizeSegment_serializeSegment (rt : Runtime B Text Vec Dist) (files : Files B)
    {s : Segment B Text} (hid : s.segId < 256 ^ 8) (hf : s.index.Fits) (rest : Bytes) :
    ∃ g, deserealizeSegment files (serializeSegment rt files s ++ rest) = .ok (some g, rest) ∧
      g.segId = s.segId ∧ g.index.Same s.index ∧
      g.index.getSegmentType = s.index.getSegmentType := by
  obtain ⟨kind, htype, hread⟩ :=
    deserealizeSegment_type files s.index (s.serialize rt files ++ rest)
  obtain ⟨g, hg, hsame, hkind⟩ := FaissIndex.ofFile_serializeIndex hf (word 8 s.segId ++ rest) rt
    files kind
  refine ⟨⟨s.segId, g⟩, ?_, rfl, hsame, htype g hkind⟩
  rw [serializeSegment, List.append_assoc, hread, Segment.ofFile, Segment.serialize,
    List.append_assoc, hg, ok_bind]
  dsimp only
  rw [readWord_word hid]
  rfl

/-- The segment in the file holds the row. -/
def Shows {rt : Runtime B Text Vec Dist} (base : StoringBase rt.faiss) (files : Files B)
    (file : Bytes) (x : Text) (v : Vec) : Prop :=
  ∃ g rest, deserealizeSegment files file = .ok (some g, rest) ∧ g.index.Holds base x v

theorem shows_of_ok {rt : Runtime B Text Vec Dist} {base : StoringBase rt.faiss} {files : Files B}
    {file rest : Bytes} {g : Segment B Text}
    (h : deserealizeSegment files file = .ok (some g, rest)) {x : Text} {v : Vec} :
    Shows base files file x v ↔ g.index.Holds base x v := by
  constructor
  · rintro ⟨g', rest', hg', hholds⟩
    obtain ⟨heq, -⟩ := Prod.mk.inj (Except.ok.inj (hg'.symm.trans h))
    rwa [← Option.some.inj heq]
  · exact fun hholds => ⟨g, rest, h, hholds⟩

/-! ## Points on a line -/

/-- A list of numbers in unary: ones, a zero after every number, a two at the end. -/
def writeUnary (ns : List Nat) : Bytes :=
  ns.flatMap (fun n => List.replicate n 1 ++ [0]) ++ [2]

def readUnary : Nat → List Nat → Bytes → Option (List Nat × Bytes)
  | _, _, [] => none
  | n, ns, b :: bs =>
    if b = 1 then readUnary (n + 1) ns bs
    else if b = 0 then readUnary 0 (ns ++ [n]) bs
    else some (ns, bs)

theorem readUnary_write (ns done : List Nat) (rest : Bytes) :
    readUnary 0 done (writeUnary ns ++ rest) = some (done ++ ns, rest) := by
  have hone : ∀ n m done bs, readUnary m done (List.replicate n 1 ++ bs) =
      readUnary (m + n) done bs := by
    intro n
    induction n with
    | zero => exact fun m done bs => rfl
    | succ n ih =>
      intro m done bs
      rw [List.replicate_succ, List.cons_append, readUnary, if_pos rfl, ih]
      exact congrArg (readUnary · done bs) (by omega)
  induction ns generalizing done with
  | nil => rw [List.append_nil]; rfl
  | cons n ns ih =>
    have hcons : writeUnary (n :: ns) ++ rest =
        List.replicate n 1 ++ (0 :: (writeUnary ns ++ rest)) := by
      simp [writeUnary]
    rw [hcons, hone, readUnary, if_neg (by decide), if_pos rfl, ih, Nat.zero_add,
      List.append_assoc, List.singleton_append]

/-- Files for the index of points on a line. The concrete runs of the system use them. -/
def lineFiles : Files (List Nat) where
  writeIndex := writeUnary
  readIndex := readUnary 0 []
  idsOrder := IterOrder.insertion _
  erasedOrder := IterOrder.insertion _
  unset := 99
  read_write ns rest := readUnary_write ns [] rest

/-! ## The round trip

The numbers of a file are 64-bit patterns, so a negative `idx_t` is the number its pattern stands
for. -/

/-- Whatever the state of a segment and whatever follows its file, `DeserealizeSegment` gives back
every field of the segment and stops behind the file. -/
theorem segment_codec_round_trip (rt : Runtime B Text Vec Dist) (files : Files B)
    (s : Segment B Text) (hid : s.segId < 256 ^ 8) (hf : s.index.Fits) (rest : Bytes) :
    ∃ g, deserealizeSegment files (serializeSegment rt files s ++ rest) = .ok (some g, rest) ∧
      g.index.getSegmentType = s.index.getSegmentType ∧ g.segId = s.segId ∧
      g.index.index = s.index.index ∧ g.index.nextId = s.index.nextId ∧
      (∀ x, g.index.ids.lookup x = s.index.ids.lookup x) ∧
      (∀ p, g.index.invIds.lookup p = s.index.invIds.lookup p) ∧
      g.index.erased = s.index.erased := by
  obtain ⟨g, hread, hsegId, hsame, htype⟩ :=
    deserealizeSegment_serializeSegment rt files hid hf rest
  exact ⟨g, hread, htype, hsegId, hsame.index, hsame.nextId, hsame.lookup_ids, hsame.lookup_invIds,
    hsame.erased⟩

/-- A segment whose ids are the empty string and a zero byte, the latter erased. -/
def zeroByteSegment : Segment (List Nat) Text where
  segId := 7
  index :=
    { kind := .hnswFlat
      index := [10, 20]
      nextId := 2
      ids := (AList.singleton ⟨[], by decide⟩ 0).insert ⟨[0], by decide⟩ 1
      invIds := (AList.singleton 0 ⟨[], by decide⟩).insert 1 ⟨[0], by decide⟩
      erased := {1} }

theorem zeroByteSegment_fits : zeroByteSegment.index.Fits :=
  ⟨by decide, by decide, by decide, by decide, by decide, by decide, by decide⟩

theorem segment_codec_round_trip_zeroByte :
    ∃ g, deserealizeSegment lineFiles
        (serializeSegment (lineRuntime Text id) lineFiles zeroByteSegment ++ [5, 6]) =
          .ok (some g, [5, 6]) ∧
      g.index.getSegmentType = 1 ∧ g.segId = 7 ∧ g.index.index = [10, 20] ∧ g.index.nextId = 2 ∧
      (∀ x, g.index.ids.lookup x = zeroByteSegment.index.ids.lookup x) ∧
      (∀ p, g.index.invIds.lookup p = zeroByteSegment.index.invIds.lookup p) ∧
      g.index.erased = {1} :=
  segment_codec_round_trip (lineRuntime Text id) lineFiles zeroByteSegment (by decide)
    zeroByteSegment_fits [5, 6]

end Vecodex
