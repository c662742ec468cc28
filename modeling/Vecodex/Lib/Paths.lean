import Mathlib.Data.List.Basic

/-!
# Words with separators

A flat key space is often used like a tree: the words of a path are written one after the other,
with a separator in between, and a subtree is what has a given prefix. This is unambiguous as long
as the words do not contain the separator: a prefix that ends inside a word fixes all words before
it (`separated_prefix_iff`), and so does the whole path (`separated_inj`).
-/

namespace Vecodex.Lib

variable {α : Type} {sep : α}

/-- A word in front of a separator. -/
theorem separated_prefix_iff {a b x y : List α} (ha : sep ∉ a) (hb : sep ∉ b) :
    a ++ sep :: x <+: b ++ sep :: y ↔ a = b ∧ x <+: y := by
  induction a generalizing b with
  | nil =>
    cases b with
    | nil => simp
    | cons c b =>
      have hne : sep ≠ c := fun h => hb (h ▸ List.mem_cons_self)
      simp [List.cons_prefix_cons, hne]
  | cons c a ih =>
    rw [List.mem_cons, not_or] at ha
    cases b with
    | nil => simp [List.cons_prefix_cons, Ne.symm ha.1]
    | cons d b =>
      rw [List.mem_cons, not_or] at hb
      simp [List.cons_prefix_cons, ih ha.2 hb.2, and_assoc]

/-- Two words in front of separators. -/
theorem separated_inj {a b x y : List α} (ha : sep ∉ a) (hb : sep ∉ b) :
    a ++ sep :: x = b ++ sep :: y ↔ a = b ∧ x = y := by
  constructor
  · intro h
    obtain ⟨rfl, -⟩ := (separated_prefix_iff ha hb).mp ⟨[], by rw [List.append_nil, h]⟩
    exact ⟨rfl, (List.cons.inj (List.append_cancel_left h)).2⟩
  · rintro ⟨rfl, rfl⟩
    rfl

end Vecodex.Lib
