import Vecodex.Laws.Shape

/-!
# Accesses to the levels

`levels` is a vector of vectors, and `operator[]` behind the end of a vector has no defined value.
The model of `SegmentStorage` reads such a cell as null and pushes nothing. This module writes
`add` and `merge` once more with every access checked: a checked operation fails where the code
would leave a vector. It never does (`storageAdd_in_range`, `merge_in_range`), so both versions
are the same function.

The row an inner loop works on keeps its width while it runs, since joined cells stay in place as
nulls and the survivor goes to the next row. This is why the bound the loop starts with stays
right.
-/

namespace Vecodex

open Lib

variable {B ID Vec Dist : Type} [DecidableEq ID]

namespace Index

/-- The value of an access, which exists inside the vector only. -/
def access {α : Type} : Option α → Except Fault α
  | some a => .ok a
  | none => .error .outOfRange

def storageAddChecked (idx : Index B ID) (p : Nat) : Except Fault (Index B ID) := do
  let (i, levels) ← levelLoop (idx.seg p).size 64 0 idx.levels
  let levels ← access (levels.push? (i - 1) p)
  return { idx with counter := sizeT (idx.counter + 1), levels := levels }

def mergePairChecked (rt : Runtime B ID Vec Dist) (i : Nat) (s : MergeState B ID) (j : Nat) :
    Except Fault (MergeState B ID) := do
  let left ← access (s.index.levels.cell? i j)
  let right ← access (s.index.levels.cell? i (j + 1))
  match left, right with
  | some a, some b =>
    let need := sizeT ((s.index.seg a).size + (s.index.seg b).size)
    if need > s.amount then .ok s
    else do
      let merged ← (s.index.seg a).mergeSegment rt (s.index.seg b)
      let levels ← access (s.index.levels.push? (i + 1) a)
      -- the cells that are reset, in the grown levels
      let _ ← access (levels.cell? i j)
      let _ ← access (levels.cell? i (j + 1))
      return {
        index := { s.index with
          heap := s.index.heap.set a { merged with segId := rt.rand s.index.draws }
          draws := s.index.draws + 1
          levels := levels.clearPair i j
          counter := sizeT (s.index.counter - 1)
          trace := s.index.trace ++ [.joined (s.index.seg a) (s.index.seg b)] }
        amount := s.amount - need
        erased := s.erased ++ [s.index.idOf b, s.index.idOf a]
        inserted := s.inserted ++ [a] }
  | _, _ => .ok s

def joinPairsChecked (rt : Runtime B ID Vec Dist) (i : Nat) (s : MergeState B ID) :
    Except Fault (MergeState B ID) := do
  let row ← access s.index.levels[i]?
  (List.range (row.length - 1)).foldlM (mergePairChecked rt i) s

def mergeLoopChecked (rt : Runtime B ID Vec Dist) : Nat → Nat → MergeState B ID →
    Except Fault (MergeState B ID)
  | 0, i, s => if s.amount > 0 ∧ i < s.index.levels.length then .error .outOfFuel else .ok s
  | fuel + 1, i, s =>
    if s.amount > 0 ∧ i < s.index.levels.length then do
      let s ← joinPairsChecked rt i s
      mergeLoopChecked rt fuel (i + 1) { s with
        index := s.index.finishPass s.erased s.inserted
        erased := []
        inserted := [] }
    else .ok s

def mergeChecked (rt : Runtime B ID Vec Dist) (idx : Index B ID) (amount : Nat) :
    Except Fault (Index B ID) := do
  let s ← mergeLoopChecked rt (idx.levels.weight 0) 0
    { index := idx, amount := amount, erased := [], inserted := [] }
  return { s.index with levels := s.index.levels.compact }

/-! ## The checks never fail -/

omit [DecidableEq ID] in
theorem storageAddChecked_eq (idx : Index B ID) (p : Nat) :
    idx.storageAddChecked p = idx.storageAdd p := by
  unfold storageAddChecked storageAdd
  cases hlevel : levelLoop (idx.seg p).size 64 0 idx.levels with
  | error e => rfl
  | ok r =>
    have hle := (levelLoop_eq_ok hlevel (Nat.zero_le _)).2
    simp only [ok_bind]
    rw [Grid.push?_eq (by omega)]
    rfl

theorem mergePairChecked_eq (rt : Runtime B ID Vec Dist) {i j : Nat} {s : MergeState B ID}
    (h : j + 1 < s.index.levels.width i) : mergePairChecked rt i s j = mergePair rt i s j := by
  have hrow : i + 1 ≤ s.index.levels.length := Grid.lt_length_of_width h
  have hcell : ∀ (a : Nat) {j' : Nat}, j' < s.index.levels.width i →
      (s.index.levels.push (i + 1) a).cell? i j' =
        some ((s.index.levels.push (i + 1) a).cell i j') := by
    intro a j' hj
    apply Grid.cell?_eq
    rw [Grid.width_push_of_ne (Nat.succ_ne_self i)]
    exact hj
  unfold mergePairChecked mergePair
  rw [Grid.cell?_eq (by omega), Grid.cell?_eq h]
  simp only [access, ok_bind]
  cases s.index.levels.cell i j with
  | none => rfl
  | some a =>
    cases s.index.levels.cell i (j + 1) with
    | none => rfl
    | some b =>
      simp only [Grid.push?_eq hrow, hcell a (by omega : j < _), hcell a h, ok_bind]
      rfl

/-- A pair leaves the row of its pass as wide as it was. -/
theorem mergePair_width {rt : Runtime B ID Vec Dist} {i j : Nat} {s t : MergeState B ID}
    (h : mergePair rt i s j = .ok t) : t.index.levels.width i = s.index.levels.width i := by
  rcases mergePair_eq_ok h with rfl | ⟨a, b, -, -, -, -, rfl⟩
  · rfl
  · exact Grid.width_promote _ i j a

theorem joinPairsChecked_eq (rt : Runtime B ID Vec Dist) {i : Nat} {s : MergeState B ID}
    (h : i < s.index.levels.length) : joinPairsChecked rt i s = joinPairs rt i s := by
  unfold joinPairsChecked joinPairs
  rw [List.getElem?_eq_getElem h, access, ok_bind, Option.getD_some]
  refine foldlM_congr (P := fun t : MergeState B ID =>
    t.index.levels.width i = s.index.levels.width i) ?_ ?_ rfl
  · intro u t j _ hu hstep
    rw [mergePair_width hstep, hu]
  · intro u j hj hu
    apply mergePairChecked_eq
    have hwidth : s.index.levels.width i = (s.index.levels[i]).length := by
      rw [Grid.width, List.getElem?_eq_getElem h, Option.getD_some]
    have hlt := List.mem_range.mp hj
    omega

theorem mergeLoopChecked_eq (rt : Runtime B ID Vec Dist) (fuel i : Nat) (s : MergeState B ID) :
    mergeLoopChecked rt fuel i s = mergeLoop rt fuel i s := by
  induction fuel generalizing i s with
  | zero => rfl
  | succ fuel ih =>
    rw [mergeLoopChecked, mergeLoop]
    split
    · next hrun =>
      simp only [joinPairsChecked_eq rt hrun.2, ih]
    · rfl

theorem mergeChecked_eq (rt : Runtime B ID Vec Dist) (idx : Index B ID) (amount : Nat) :
    idx.mergeChecked rt amount = idx.merge rt amount := by
  unfold mergeChecked merge
  rw [mergeLoopChecked_eq]

/-- A pair fails by the cast only. -/
theorem mergePair_eq_error {rt : Runtime B ID Vec Dist} {i j : Nat} {s : MergeState B ID}
    {e : Fault} (h : mergePair rt i s j = .error e) : e = .badCast := by
  unfold mergePair at h
  split at h
  · dsimp only at h
    split at h
    · cases h
    · rcases bind_eq_error.mp h with hsegment | ⟨merged, -, hret⟩
      · rcases bind_eq_error.mp hsegment with hindex | ⟨index, -, hret⟩
        · rw [FaissIndex.mergeFromOther] at hindex
          split at hindex
          · exact (Except.error.inj hindex).symm
          · cases hindex
        · cases hret
      · cases hret
  · cases h

theorem mergeLoop_ne_outOfRange (rt : Runtime B ID Vec Dist) (fuel i : Nat)
    (s : MergeState B ID) : mergeLoop rt fuel i s ≠ .error .outOfRange := by
  induction fuel generalizing i s with
  | zero =>
    rw [mergeLoop]
    split
    · intro h
      cases h
    · intro h
      cases h
  | succ fuel ih =>
    rw [mergeLoop]
    split
    · intro h
      rcases bind_eq_error.mp h with hjoin | ⟨t, -, hrest⟩
      · refine foldlM_ne_error (P := fun _ => True) (fun _ _ _ _ _ _ => trivial) ?_ trivial hjoin
        intro u j _ _ hpair
        cases mergePair_eq_error hpair
      · exact ih _ _ hrest
    · intro h
      cases h

omit [DecidableEq ID] in
/-- `SegmentStorage::add` stays inside the levels, whatever they hold. -/
theorem storageAdd_in_range (idx : Index B ID) (p : Nat) :
    idx.storageAddChecked p = idx.storageAdd p ∧
      idx.storageAddChecked p ≠ .error .outOfRange := by
  rw [storageAddChecked_eq]
  refine ⟨rfl, fun h => ?_⟩
  cases storageAdd_eq_error h

/-- `SegmentStorage::merge` stays inside the levels, although it grows them. -/
theorem merge_in_range (rt : Runtime B ID Vec Dist) (idx : Index B ID) (amount : Nat) :
    idx.mergeChecked rt amount = idx.merge rt amount ∧
      idx.mergeChecked rt amount ≠ .error .outOfRange := by
  rw [mergeChecked_eq]
  refine ⟨rfl, fun h => ?_⟩
  rcases bind_eq_error.mp h with hloop | ⟨t, -, hret⟩
  · exact mergeLoop_ne_outOfRange rt _ _ _ hloop
  · cases hret

end Index

end Vecodex
