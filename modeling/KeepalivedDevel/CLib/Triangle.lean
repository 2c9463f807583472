import Mathlib.Algebra.BigOperators.Intervals

/-!
# Triangular numbers and the pairing they give

`pair a b` numbers the pairs of natural numbers diagonal by diagonal: those with
the same sum `n` fill the range from `tri n` up to `tri (n + 1)`.
-/

namespace CLib.Triangle

def tri (n : ℕ) : ℕ := n * (n + 1) / 2

def pair (a b : ℕ) : ℕ := tri (a + b) + a

theorem tri_succ (n : ℕ) : tri (n + 1) = tri n + (n + 1) := by
  have h := Nat.triangle_succ (n + 1)
  simp only [Nat.add_sub_cancel] at h
  rw [tri, tri, Nat.mul_comm (n + 1) (n + 1 + 1), h, Nat.mul_comm (n + 1) n]

theorem tri_mono : Monotone tri := by
  apply monotone_nat_of_le_succ
  intro n
  rw [tri_succ]
  omega

theorem pair_range (a b : ℕ) : tri (a + b) ≤ pair a b ∧ pair a b < tri (a + b + 1) := by
  rw [tri_succ, pair]
  omega

/- The ranges of different sums do not meet. -/
theorem sum_le_of_pair_eq {a b c d : ℕ} (h : pair a b = pair c d) : a + b ≤ c + d := by
  by_contra hlt
  have hmono : tri (c + d + 1) ≤ tri (a + b) := tri_mono (by omega)
  have hab := pair_range a b
  have hcd := pair_range c d
  omega

theorem pair_inj {a b c d : ℕ} (h : pair a b = pair c d) : a = c ∧ b = d := by
  have hsum : a + b = c + d :=
    le_antisymm (sum_le_of_pair_eq h) (sum_le_of_pair_eq h.symm)
  rw [pair, pair, hsum] at h
  omega

end CLib.Triangle
