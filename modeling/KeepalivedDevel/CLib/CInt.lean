import Mathlib.Tactic.Common
import Mathlib.Data.Int.Order.Basic

/-!
# 32-bit `int`

Values of type `int`, and what the machine makes of a result that is none: the
result modulo `2 ^ 32`, as a signed number.
-/

namespace CLib

abbrev CInt := { z : ℤ // -2147483648 ≤ z ∧ z ≤ 2147483647 }

namespace CInt

def sub (a b : CInt) : ℤ := (a.val - b.val).bmod 4294967296

/- The difference is a value of type `int` itself. -/
def NoOverflow (a b : CInt) : Prop :=
  -2147483648 ≤ a.val - b.val ∧ a.val - b.val ≤ 2147483647

theorem sub_eq (a b : CInt) :
    (NoOverflow a b ∧ sub a b = a.val - b.val) ∨
    (2147483647 < a.val - b.val ∧ sub a b = a.val - b.val - 4294967296) ∨
    (a.val - b.val < -2147483648 ∧ sub a b = a.val - b.val + 4294967296) := by
  have ha := a.property
  have hb := b.property
  unfold NoOverflow sub
  rw [Int.bmod_def]
  omega

def InRange (z : ℤ) : Prop := -2147483648 ≤ z ∧ z ≤ 2147483647

instance (z : ℤ) : Decidable (InRange z) := inferInstanceAs (Decidable (_ ∧ _))

/- The value of an expression of type `int` whose exact value is `z`. -/
def wrap (z : ℤ) : ℤ := z.bmod 4294967296

theorem wrap_eq {z : ℤ} (h : InRange z) : wrap z = z := by
  obtain ⟨hlo, hhi⟩ := h
  unfold wrap
  apply Int.bmod_eq_of_le <;> omega

theorem wrap_wrap_add (a b : ℤ) : wrap (wrap a + b) = wrap (a + b) := Int.bmod_add_bmod ..

theorem wrap_add_wrap (a b : ℤ) : wrap (a + wrap b) = wrap (a + b) := Int.add_bmod_bmod ..

theorem wrap_mul (a b : ℤ) : wrap (wrap a * wrap b) = wrap (a * b) := by
  unfold wrap
  rw [Int.bmod_mul_bmod, Int.mul_bmod_bmod]

/- The two halves of the residues modulo `2 ^ 32`. -/
theorem wrap_cases (z : ℤ) :
    (z % 4294967296 < 2147483648 ∧ wrap z = z % 4294967296) ∨
    (2147483648 ≤ z % 4294967296 ∧ wrap z = z % 4294967296 - 4294967296) := by
  unfold wrap
  rw [Int.bmod_def]
  omega

theorem wrap_inRange (z : ℤ) : InRange (wrap z) := by
  have hcases := wrap_cases z
  unfold InRange
  omega

end CInt

end CLib
