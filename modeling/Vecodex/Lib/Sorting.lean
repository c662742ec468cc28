import Mathlib.Data.Finset.Card
import Mathlib.Data.List.Sort
import Mathlib.Data.Prod.Lex

/-!
# Sorting with unknown ties

What a library sort is known to do: it rearranges a list such that no element belongs before an
earlier one. Elements the comparator does not tell apart come in any order, so a statement about a
program that sorts is a statement about every `Sorting` of its comparator.

A program that keeps the first elements of a sorted list keeps none that is beaten by one it leaves
out (`Sorting.not_before_of_mem_take`). What it keeps is a given set, whatever the ties, exactly
when every element of the set beats every other one (`Sorting.mem_take_iff`,
`Sorting.lt_of_forall_take`).
-/

namespace Vecodex.Lib

variable {ε κ : Type}

/-- A sort with a comparator: some rearrangement in which no element belongs before an earlier
one. -/
structure Sorting (before : ε → ε → Bool) where
  sort : List ε → List ε
  perm : ∀ l, (sort l).Perm l
  sorted : ∀ l, (sort l).Pairwise fun a b => before b a = false

namespace Sorting

variable {before : ε → ε → Bool}

/-- Sorting along a key, the largest first. -/
def ofKey [LinearOrder κ] (key : ε → κ) (h : ∀ a b, key b ≤ key a → before b a = false) :
    Sorting before :=
  have : Std.Total fun a b => key b ≤ key a := ⟨fun a b => le_total (key b) (key a)⟩
  have : IsTrans ε fun a b => key b ≤ key a := ⟨fun _ _ _ hab hbc => hbc.trans hab⟩
  { sort := fun l => l.insertionSort fun a b => key b ≤ key a
    perm := fun l => List.perm_insertionSort _ l
    sorted := fun l => (List.pairwise_insertionSort _ l).imp fun hab => h _ _ hab }

theorem ofKey_sorted [LinearOrder κ] (key : ε → κ)
    (h : ∀ a b, key b ≤ key a → before b a = false) (l : List ε) :
    ((ofKey key h).sort l).Pairwise fun a b => key b ≤ key a :=
  have : Std.Total fun a b => key b ≤ key a := ⟨fun a b => le_total (key b) (key a)⟩
  have : IsTrans ε fun a b => key b ≤ key a := ⟨fun _ _ _ hab hbc => hbc.trans hab⟩
  List.pairwise_insertionSort _ l

/-- In a list ordered by a relation, what is kept stands in the relation to what is left out. -/
theorem rel_of_mem_take {r : ε → ε → Prop} {l : List ε} (h : l.Pairwise r) {k : Nat} {a b : ε}
    (ha : a ∈ l.take k) (hb : b ∈ l) (hout : b ∉ l.take k) : r a b := by
  rw [← List.take_append_drop k l, List.mem_append] at hb
  rw [← List.take_append_drop k l, List.pairwise_append] at h
  exact h.2.2 a ha b (hb.resolve_left hout)

theorem not_before_of_mem_take (sorting : Sorting before) {l : List ε} {k : Nat} {a b : ε}
    (ha : a ∈ (sorting.sort l).take k) (hb : b ∈ l) (hout : b ∉ (sorting.sort l).take k) :
    before b a = false :=
  rel_of_mem_take (sorting.sorted l) ha ((sorting.perm l).mem_iff.mpr hb) hout

section Kept

variable [DecidableEq ε] [LinearOrder κ] {score : ε → κ} {l : List ε} {kept : Finset ε} {k : Nat}

/-- When a set of the right size is what every sorting keeps, all of it scores above the rest. -/
theorem lt_of_forall_take (hbefore : ∀ a b, before a b = true ↔ score b < score a)
    (h : ∀ sorting : Sorting before, ∀ a, a ∈ (sorting.sort l).take k ↔ a ∈ kept) {a b : ε}
    (ha : a ∈ kept) (hb : b ∈ l) (hout : b ∉ kept) : score b < score a := by
  -- break the ties in favour of b
  let key : ε → κ ×ₗ Nat := fun x => toLex (score x, if x = b then 1 else 0)
  have hkey : ∀ x y, key y ≤ key x → before y x = false := by
    intro x y hle
    rw [← Bool.not_eq_true, hbefore, not_lt]
    exact (Prod.Lex.le_iff.mp hle).elim le_of_lt fun heq => heq.1.le
  have hmem := h (ofKey key hkey)
  have hle : key b ≤ key a := rel_of_mem_take (ofKey_sorted key hkey l) ((hmem a).mpr ha)
    (((ofKey key hkey).perm l).mem_iff.mpr hb) fun hb => hout ((hmem b).mp hb)
  rcases Prod.Lex.le_iff.mp hle with hlt | ⟨-, htie⟩
  · exact hlt
  · have hne : a ≠ b := fun heq => hout (heq ▸ ha)
    simp [key, hne] at htie

/-- When all of a set of the right size scores above the rest, it is what every sorting keeps. -/
theorem mem_take_iff (sorting : Sorting before)
    (hbefore : ∀ a b, before a b = true ↔ score b < score a) (hl : l.Nodup)
    (hkept : ∀ a ∈ kept, a ∈ l) (hcard : kept.card = min k l.length)
    (h : ∀ a ∈ kept, ∀ b ∈ l, b ∉ kept → score b < score a) (a : ε) :
    a ∈ (sorting.sort l).take k ↔ a ∈ kept := by
  have hnodup : ((sorting.sort l).take k).Nodup :=
    ((sorting.perm l).nodup_iff.mpr hl).sublist (List.take_sublist k _)
  have hsize : ((sorting.sort l).take k).toFinset.card = kept.card := by
    rw [List.toFinset_card_of_nodup hnodup, List.length_take, (sorting.perm l).length_eq, hcard]
  -- an element left out would be beaten by one kept in its place
  have hall : kept ⊆ ((sorting.sort l).take k).toFinset := by
    by_contra hnot
    obtain ⟨a, ha, haout⟩ := Finset.not_subset.mp hnot
    obtain ⟨b, hb, hbout⟩ : ∃ b ∈ ((sorting.sort l).take k).toFinset, b ∉ kept := by
      by_contra hnone
      push Not at hnone
      exact haout (Finset.eq_of_subset_of_card_le hnone hsize.ge ▸ ha)
    rw [List.mem_toFinset] at hb haout
    have hbeaten := sorting.not_before_of_mem_take hb (hkept a ha) haout
    rw [← Bool.not_eq_true, hbefore] at hbeaten
    exact hbeaten (h a ha b ((sorting.perm l).mem_iff.mp (List.mem_of_mem_take hb)) hbout)
  rw [Finset.eq_of_subset_of_card_le hall hsize.le, List.mem_toFinset]

end Kept

end Sorting

end Vecodex.Lib
