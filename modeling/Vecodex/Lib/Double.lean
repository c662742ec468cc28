import Mathlib.Algebra.Order.Ring.Nat

/-!
# Natural numbers as doubles

A double has 53 significant bits. A natural number that needs more is rounded to the nearest number
that does not, and to the one with the even significand when two are equally near. Exponents play
no part for numbers of the size of a machine word.
-/

namespace Vecodex.Lib

/-- The value of a natural number once it is stored as a double. -/
def toDouble (n : Nat) : Nat :=
  if n < 2 ^ 53 then n
  else
    let unit := 2 ^ (n.log2 - 52)
    let rest := n % unit
    if 2 * rest < unit ∨ 2 * rest = unit ∧ n / unit % 2 = 0 then n - rest else n - rest + unit

/-- Doubles count one by one up to here. -/
theorem toDouble_of_le {n : Nat} (h : n ≤ 2 ^ 53) : toDouble n = n := by
  rcases Nat.lt_or_eq_of_le h with hlt | rfl
  · rw [toDouble, if_pos hlt]
  · decide +kernel

/-- The first number that is none. -/
theorem toDouble_stuck : toDouble (2 ^ 53 + 1) = 2 ^ 53 := by decide +kernel

/-- The largest word is rounded out of the range of words. -/
theorem toDouble_word : toDouble (2 ^ 64 - 1) = 2 ^ 64 := by decide +kernel

end Vecodex.Lib
