import Mathlib.Data.Finset.Card
import Mathlib.Data.List.GetD
import Vecodex.Lib.Sorting

/-!
# Rankings with ties

A program sorts candidates by a score, the largest first, and keeps the first `n`. When candidates
tie, the sort decides which of them come first and which are cut off, so there are several possible
outputs. `Ranking` says which lists these are, without naming a sort: every list that a sorting
leaves is a ranking (`Ranking.of_sorted`), and every ranking is what is left by some sorting
(`Ranking.exists_extension`, `Sorting.exists_sort_eq`).

Two scores have the same rankings when they order the candidates in the same way
(`Ranking.congr`). The candidates that can come first are those with the largest score
(`Ranking.exists_first_iff`).
-/

namespace Vecodex.Lib

namespace Sorting

variable {ε : Type} {before : ε → ε → Bool}

/-- Every ordered rearrangement of a list is what some sorting makes of it. -/
theorem exists_sort_eq (other : Sorting before) {l t : List ε} (hperm : t.Perm l)
    (hsorted : t.Pairwise fun a b => before b a = false) :
    ∃ sorting : Sorting before, sorting.sort l = t := by
  classical
  refine ⟨{ sort := fun l' => if l' = l then t else other.sort l', perm := ?_, sorted := ?_ },
    if_pos rfl⟩
  · intro l'
    split
    · next heq => exact heq ▸ hperm
    · exact other.perm l'
  · intro l'
    split
    · exact hsorted
    · exact other.sorted l'

end Sorting

variable {α κ : Type} [LinearOrder κ]

/-- A possible output of ranking the candidates by their scores and keeping the first `n`. -/
structure Ranking (score : α → κ) (candidates : Finset α) (n : Nat) (out : List α) : Prop where
  nodup : out.Nodup
  length : out.length = min n candidates.card
  mem : ∀ a ∈ out, a ∈ candidates
  sorted : out.Pairwise fun a b => score b ≤ score a
  best : ∀ a ∈ out, ∀ b ∈ candidates, b ∉ out → score b ≤ score a

namespace Ranking

variable {score : α → κ} {candidates : Finset α} {n : Nat} {out : List α}

/-- The first elements of the sorted candidates are a ranking. -/
theorem of_sorted {l : List α} (hnodup : l.Nodup) (hmem : ∀ a, a ∈ l ↔ a ∈ candidates)
    (hsorted : l.Pairwise fun a b => score b ≤ score a) (n : Nat) :
    Ranking score candidates n (l.take n) := by
  classical
  have hset : l.toFinset = candidates := by
    ext a
    rw [List.mem_toFinset, hmem]
  have hlen : l.length = candidates.card := by
    rw [← hset, List.toFinset_card_of_nodup hnodup]
  refine ⟨hnodup.sublist (List.take_sublist n l), ?_, ?_, ?_, ?_⟩
  · rw [List.length_take, hlen]
  · exact fun a ha => (hmem a).mp (List.mem_of_mem_take ha)
  · exact hsorted.sublist (List.take_sublist n l)
  · exact fun a ha b hb hout => Sorting.rel_of_mem_take hsorted ha ((hmem b).mpr hb) hout

/-- The candidates in order of their scores. -/
theorem exists_sorted (score : α → κ) (candidates : Finset α) :
    ∃ l : List α, l.Nodup ∧ (∀ a, a ∈ l ↔ a ∈ candidates) ∧
      l.Pairwise fun a b => score b ≤ score a := by
  have hbefore : ∀ a b, score b ≤ score a → decide (score a < score b) = false := fun a b hle =>
    decide_eq_false (not_lt.mpr hle)
  let sorting : Sorting fun b a => decide (score a < score b) := Sorting.ofKey score hbefore
  have hperm := sorting.perm candidates.toList
  refine ⟨sorting.sort candidates.toList, ?_, fun a => ?_, Sorting.ofKey_sorted score hbefore _⟩
  · exact hperm.nodup_iff.mpr candidates.nodup_toList
  · rw [hperm.mem_iff, Finset.mem_toList]

/-- A ranking can be continued to an order of all candidates. -/
theorem exists_extension (h : Ranking score candidates n out) :
    ∃ l : List α, l.Nodup ∧ (∀ a, a ∈ l ↔ a ∈ candidates) ∧
      (l.Pairwise fun a b => score b ≤ score a) ∧ l.take n = out := by
  classical
  obtain ⟨rest, hnodup, hrest, hsorted⟩ := exists_sorted score (candidates \ out.toFinset)
  have hrest' : ∀ a, a ∈ rest ↔ a ∈ candidates ∧ a ∉ out := fun a => by
    rw [hrest, Finset.mem_sdiff, List.mem_toFinset]
  have hall : ∀ a, a ∈ out ++ rest ↔ a ∈ candidates := by
    intro a
    rw [List.mem_append, hrest']
    by_cases ha : a ∈ out
    · simp [ha, h.mem a ha]
    · simp [ha]
  have hdisjoint : (out ++ rest).Nodup :=
    h.nodup.append hnodup fun a ha ha' => ((hrest' a).mp ha').2 ha
  refine ⟨out ++ rest, hdisjoint, hall, ?_, ?_⟩
  · rw [List.pairwise_append]
    refine ⟨h.sorted, hsorted, fun a ha b hb => ?_⟩
    exact h.best a ha b ((hrest' b).mp hb).1 ((hrest' b).mp hb).2
  · have hcard : (out ++ rest).length = candidates.card := by
      rw [← List.toFinset_card_of_nodup hdisjoint]
      congr 1
      ext a
      rw [List.mem_toFinset, hall]
    have hlen := h.length
    rw [List.length_append] at hcard
    rcases Nat.le_total n candidates.card with hle | hle
    · exact List.take_left' (by omega)
    · obtain rfl : rest = [] := List.eq_nil_of_length_eq_zero (by omega)
      rw [List.append_nil, List.take_of_length_le (by omega)]

/-- A candidate with a larger score is in a ranking that has the other one, and before it. -/
theorem ahead (h : Ranking score candidates n out) {a b : α} (ha : a ∈ candidates)
    (hlt : score b < score a) {j : Nat} (hb : out[j]? = some b) :
    ∃ i < j, out[i]? = some a := by
  have hmem : a ∈ out := by
    by_contra hout
    exact absurd (h.best b (List.mem_of_getElem? hb) a ha hout) (not_le.mpr hlt)
  obtain ⟨i, hi⟩ := List.mem_iff_getElem?.mp hmem
  refine ⟨i, ?_, hi⟩
  obtain ⟨hilt, rfl⟩ := List.getElem?_eq_some_iff.mp hi
  obtain ⟨hjlt, rfl⟩ := List.getElem?_eq_some_iff.mp hb
  by_contra hnot
  rcases Nat.lt_or_eq_of_le (Nat.not_lt.mp hnot) with hji | rfl
  · exact absurd (List.pairwise_iff_getElem.mp h.sorted j i hjlt hilt hji) (not_le.mpr hlt)
  · exact lt_irrefl _ hlt

/-- Scores that order the candidates alike have the same rankings. -/
theorem congr {κ' : Type} [LinearOrder κ'] {score' : α → κ'}
    (h : ∀ a ∈ candidates, ∀ b ∈ candidates, score b ≤ score a → score' b ≤ score' a)
    (hout : Ranking score candidates n out) : Ranking score' candidates n out := by
  refine ⟨hout.nodup, hout.length, hout.mem, ?_, ?_⟩
  · exact hout.sorted.imp_of_mem fun {a b} ha hb hle => h a (hout.mem a ha) b (hout.mem b hb) hle
  · exact fun a ha b hb hnot => h a (hout.mem a ha) b hb (hout.best a ha b hb hnot)

/-- When no two candidates tie, there is one ranking. -/
theorem eq_take {l : List α} (hmem : ∀ a, a ∈ l ↔ a ∈ candidates)
    (hsorted : l.Pairwise fun a b => score b < score a) (h : Ranking score candidates n out) :
    out = l.take n := by
  obtain ⟨l', hnodup, hmem', hsorted', rfl⟩ := h.exists_extension
  have hscores : (l.map score).Nodup := by
    rw [List.Nodup, List.pairwise_map]
    exact hsorted.imp fun hlt => hlt.ne'
  have hperm : l'.Perm l :=
    (List.perm_ext_iff_of_nodup hnodup (.of_map score hscores)).mpr fun a => by rw [hmem, hmem']
  rw [hperm.eq_of_pairwise ?_ hsorted' (hsorted.imp le_of_lt)]
  intro a b ha hb hle hge
  exact List.inj_on_of_nodup_map hscores (hperm.mem_iff.mp ha) hb (le_antisymm hge hle)

/-- The empty ranking. -/
theorem nil_iff : Ranking score candidates n [] ↔ min n candidates.card = 0 := by
  constructor
  · exact fun h => h.length.symm
  · exact fun h => ⟨.nil, h.symm, List.forall_mem_nil _, .nil, List.forall_mem_nil _⟩

theorem zero_iff : Ranking score candidates 0 out ↔ out = [] := by
  constructor
  · intro h
    exact List.eq_nil_of_length_eq_zero (by rw [h.length, Nat.zero_min])
  · rintro rfl
    exact nil_iff.mpr (Nat.zero_min _)

/-- What can come first: the candidates no other one has a larger score than. -/
theorem exists_first_iff (hn : 0 < n) {a : α} :
    (∃ rest, Ranking score candidates n (a :: rest)) ↔
      a ∈ candidates ∧ ∀ b ∈ candidates, score b ≤ score a := by
  classical
  constructor
  · rintro ⟨rest, h⟩
    refine ⟨h.mem a List.mem_cons_self, fun b hb => ?_⟩
    by_cases hout : b ∈ a :: rest
    · rcases List.mem_cons.mp hout with rfl | hrest
      · exact le_rfl
      · exact List.rel_of_pairwise_cons h.sorted hrest
    · exact h.best a List.mem_cons_self b hb hout
  · rintro ⟨ha, hmax⟩
    obtain ⟨l, hnodup, hmem, hsorted⟩ := exists_sorted score (candidates.erase a)
    have hrest : ∀ b, b ∈ l ↔ b ≠ a ∧ b ∈ candidates := fun b => by
      rw [hmem, Finset.mem_erase]
    obtain ⟨m, rfl⟩ : ∃ m, n = m + 1 := ⟨n - 1, by omega⟩
    refine ⟨l.take m, of_sorted (l := a :: l) ?_ ?_ ?_ (m + 1)⟩
    · exact List.nodup_cons.mpr ⟨fun hal => ((hrest a).mp hal).1 rfl, hnodup⟩
    · intro b
      rw [List.mem_cons, hrest]
      by_cases hb : b = a
      · simp [hb, ha]
      · simp [hb]
    · exact List.pairwise_cons.mpr ⟨fun b hb => hmax b ((hrest b).mp hb).2, hsorted⟩

end Ranking

end Vecodex.Lib
