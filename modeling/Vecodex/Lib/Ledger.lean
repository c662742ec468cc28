import Mathlib.Data.List.Perm.Basic
import Mathlib.Data.List.Perm.Subperm

/-!
# Ledgers

A ledger is a list of entries, each of which takes elements out of a collection and puts others
in. An element that is taken out must be there. The collection is kept as a list; its order does
not matter, so the statements are up to permutation.
-/

namespace Vecodex.Lib

variable {α : Type} [DecidableEq α]

/-- Take one occurrence of every element of `xs` out of the collection, if they are all there. -/
def takeOut (coll : List α) : List α → Option (List α)
  | [] => some coll
  | x :: xs => if x ∈ coll then takeOut (coll.erase x) xs else none

/-- What is part of the collection can be taken out, and leaves the rest. -/
theorem takeOut_of_perm {coll xs rest : List α} (h : coll.Perm (xs ++ rest)) :
    ∃ left, takeOut coll xs = some left ∧ left.Perm rest := by
  induction xs generalizing coll with
  | nil => exact ⟨coll, rfl, h⟩
  | cons x xs ih =>
    have hx : x ∈ coll := h.mem_iff.mpr List.mem_cons_self
    have herase : (coll.erase x).Perm (xs ++ rest) := by
      have := h.erase x
      rwa [List.cons_append, List.erase_cons_head] at this
    obtain ⟨left, hleft, hperm⟩ := ih herase
    exact ⟨left, by rw [takeOut, if_pos hx, hleft], hperm⟩

/-- What is left was there together with what was taken out. -/
theorem perm_of_takeOut {coll xs left : List α} (h : takeOut coll xs = some left) :
    coll.Perm (xs ++ left) := by
  induction xs generalizing coll with
  | nil =>
    cases h
    exact List.Perm.refl _
  | cons x xs ih =>
    rw [takeOut] at h
    split at h
    · next hx => exact (List.perm_cons_erase hx).trans ((ih h).cons x)
    · cases h

/-- An entry of a ledger: what it takes out first, and what it then puts in. -/
def post (coll : List α) (entry : List α × List α) : Option (List α) :=
  (takeOut coll entry.1).map fun left => left ++ entry.2

theorem post_of_perm {coll out rest : List α} (h : coll.Perm (out ++ rest)) (into : List α) :
    ∃ coll', post coll (out, into) = some coll' ∧ coll'.Perm (rest ++ into) := by
  obtain ⟨left, hleft, hperm⟩ := takeOut_of_perm h
  refine ⟨left ++ into, ?_, hperm.append_right into⟩
  unfold post
  rw [hleft]
  rfl

end Vecodex.Lib
