import Mathlib.Data.List.Sort
import Mathlib.Data.List.NodupEquivFin
import Vecodex.Laws.Faiss

/-!
# What is relied on of the base index

`StoringBase` is the documented behaviour of every base index: vectors are stored in the order in
which they are added, and `reconstruct` returns the stored vector. `ExactBase` adds what a flat
index promises: `search` returns the nearest stored positions, padded with -1 when there are too
few. Which of several equally near positions it returns is left open, and so is the order of its
answer.

`flatBase` is such an index over lists of vectors, the brute-force search itself. It shows that
the assumptions can be met.
-/

namespace Vecodex

open Lib

variable {B ID Vec Dist : Type} [LinearOrder Dist]

/-- `res` lists the `m` positions of `vs` nearest to `q`, with their distances, or all of them;
the rest of its `m` entries is padding. -/
structure Nearest (metric : Vec → Vec → Dist) (vs : List Vec) (q : Vec) (m : Nat)
    (res : List (Dist × Option Nat)) : Prop where
  padded : res.length = m
  nodup : (res.filterMap Prod.snd).Nodup
  count : (res.filterMap Prod.snd).length = min m vs.length
  dist : ∀ d p, (d, some p) ∈ res → ∃ v, vs[p]? = some v ∧ d = metric q v
  nearest : ∀ p p' v v', p ∈ res.filterMap Prod.snd → p' ∉ res.filterMap Prod.snd →
    vs[p]? = some v → vs[p']? = some v' → metric q v ≤ metric q v'

/-- The base index stores what is added to it. -/
structure StoringBase (faiss : BaseIndex B Vec Dist) where
  stored : B → List Vec
  stored_empty : stored faiss.empty = []
  stored_add : ∀ b vs, stored (faiss.add b vs) = stored b ++ vs
  reconstruct_stored : ∀ b p v, (stored b)[p]? = some v → faiss.reconstruct b p = v

/-- The base index is exact for the metric. -/
structure ExactBase (faiss : BaseIndex B Vec Dist) (metric : Vec → Vec → Dist) extends
    StoringBase faiss where
  search_nearest : ∀ b q m, Nearest metric (stored b) q m (faiss.search b q m)

/-! ## A flat index -/

section Flat

variable (metric : Vec → Vec → Dist)

/-- All positions of a list of vectors, nearest first. -/
def ranking (vs : List Vec) (q : Vec) : List (Dist ×ₗ Nat) :=
  (vs.zipIdx.map fun e => toLex (metric q e.1, e.2)).insertionSort (· ≤ ·)

/-- Brute-force search over a list of vectors. -/
def flatBase [Inhabited Vec] [Inhabited Dist] : BaseIndex (List Vec) Vec Dist where
  empty := []
  add b vs := b ++ vs
  search b q m :=
    ((ranking metric b q).take m).map (fun r => ((ofLex r).1, some (ofLex r).2)) ++
      List.replicate (m - b.length) (default, none)
  reconstruct b p := (b[p]?).getD default

theorem length_ranking (vs : List Vec) (q : Vec) : (ranking metric vs q).length = vs.length := by
  simp [ranking]

theorem mem_ranking {vs : List Vec} {q : Vec} {d : Dist} {p : Nat} :
    toLex (d, p) ∈ ranking metric vs q ↔ ∃ v, vs[p]? = some v ∧ d = metric q v := by
  simp only [ranking, List.mem_insertionSort, List.mem_map, toLex_inj, Prod.mk.injEq,
    Prod.exists, List.mem_zipIdx_iff_getElem?]
  constructor
  · rintro ⟨v, p', hv, hd, rfl⟩
    exact ⟨v, hv, hd.symm⟩
  · rintro ⟨v, hv, hd⟩
    exact ⟨v, p, hv, hd.symm, rfl⟩

theorem nodup_ranking_pos (vs : List Vec) (q : Vec) :
    ((ranking metric vs q).map fun r => (ofLex r).2).Nodup := by
  have hperm : ((ranking metric vs q).map fun r => (ofLex r).2).Perm (List.range vs.length) := by
    refine ((List.perm_insertionSort _ _).map _).trans ?_
    rw [List.map_map]
    have : (fun r => (ofLex r).2) ∘ (fun e : Vec × Nat => toLex (metric q e.1, e.2)) = Prod.snd :=
      rfl
    rw [this, List.zipIdx_map_snd, List.range_eq_range']
  exact hperm.nodup_iff.mpr List.nodup_range

theorem pairwise_ranking (vs : List Vec) (q : Vec) :
    (ranking metric vs q).Pairwise (· ≤ ·) :=
  List.pairwise_insertionSort _ _

theorem flatBase_nearest [Inhabited Vec] [Inhabited Dist] (b : List Vec) (q : Vec) (m : Nat) :
    Nearest metric b q m ((flatBase metric).search b q m) := by
  have hpos : (((flatBase metric).search b q m).filterMap Prod.snd) =
      ((ranking metric b q).take m).map fun r => (ofLex r).2 := by
    unfold flatBase
    rw [List.filterMap_append, List.filterMap_map, List.filterMap_replicate_of_none rfl,
      List.append_nil]
    exact congrFun List.filterMap_eq_map' _
  constructor
  · simp only [flatBase, List.length_append, List.length_map, List.length_take,
      List.length_replicate, length_ranking]
    omega
  · rw [hpos]
    exact (nodup_ranking_pos metric b q).sublist ((List.take_sublist _ _).map _)
  · rw [hpos, List.length_map, List.length_take, length_ranking]
  · intro d p hmem
    rcases List.mem_append.mp hmem with h | h
    · obtain ⟨r, hr, he⟩ := List.mem_map.mp h
      obtain ⟨rfl, hp⟩ := Prod.mk.injEq .. ▸ he
      cases hp
      exact (mem_ranking metric).mp (List.mem_of_mem_take hr)
    · simp at h
  · intro p p' v v' hp hp' hv hv'
    rw [hpos] at hp hp'
    obtain ⟨r, hr, rfl⟩ := List.mem_map.mp hp
    obtain ⟨w, hw, hd⟩ := (mem_ranking metric).mp (List.mem_of_mem_take hr : toLex (ofLex r) ∈ _)
    obtain rfl : v = w := Option.some.inj (hv.symm.trans hw)
    have hall : toLex (metric q v', p') ∈ ranking metric b q :=
      (mem_ranking metric).mpr ⟨v', hv', rfl⟩
    rw [← List.take_append_drop m (ranking metric b q)] at hall
    have hdrop : toLex (metric q v', p') ∈ (ranking metric b q).drop m := by
      rcases List.mem_append.mp hall with h | h
      · exact absurd (List.mem_map.mpr ⟨_, h, rfl⟩) hp'
      · exact h
    have hsorted := pairwise_ranking metric b q
    rw [← List.take_append_drop m (ranking metric b q)] at hsorted
    have hle := (List.pairwise_append.mp hsorted).2.2 r hr _ hdrop
    rw [← hd]
    exact Prod.Lex.monotone_fst _ _ hle

/-- The flat index meets the assumptions. -/
def flatBase_exact [Inhabited Vec] [Inhabited Dist] :
    ExactBase (flatBase metric) metric where
  stored := id
  stored_empty := rfl
  stored_add _ _ := rfl
  reconstruct_stored b p v h := by
    show (b[p]?).getD default = v
    rw [show b[p]? = some v from h]
    rfl
  search_nearest := flatBase_nearest metric

end Flat

/-! ## Points on a line -/

/-- The distance of two points. -/
def lineMetric (q v : Nat) : Nat := max q v - min q v

/-- A flat index of points on a line, with the given values of `rand()`. The concrete runs of
this development use it. -/
def lineRuntime (ID : Type) (rand : Nat → Nat) : Runtime (List Nat) ID Nat Nat where
  faiss := flatBase lineMetric
  rand := rand
  invOrder := IterOrder.insertion _
  resOrder := IterOrder.insertion _

end Vecodex
