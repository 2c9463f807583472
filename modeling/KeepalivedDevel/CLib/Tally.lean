import Mathlib.Algebra.BigOperators.Fin
import Mathlib.Algebra.Order.BigOperators.Group.Finset
import Mathlib.Tactic.Linarith

/-!
# Tables of 32-bit counters

Occurrences of the numbers below `n` counted in a table of `n` unsigned 32-bit
counters, and what the sums over such a table say about the true counts.
-/

namespace CLib.Tally

/- The table after the occurrences in `xs`. -/
def tally (n : ℕ) (xs : List ℕ) : List UInt32 :=
  (List.range n).map fun b => UInt32.ofNat (xs.count b)

theorem tally_length (n : ℕ) (xs : List ℕ) : (tally n xs).length = n := by
  rw [tally, List.length_map, List.length_range]

theorem tally_nil (n : ℕ) : tally n [] = List.replicate n 0 := by
  simp [tally]

theorem tally_concat (n : ℕ) (xs : List ℕ) (b : ℕ) :
    (tally n xs).modify b (· + 1) = tally n (xs ++ [b]) := by
  apply List.ext_getElem
  · simp only [List.length_modify, tally_length]
  · intro k hk _
    simp only [tally, List.getElem_modify, List.getElem_map, List.getElem_range, List.count_append]
    by_cases h : b = k
    · subst h
      simp [UInt32.ofNat_add]
    · simp [h]

/-! ### Sums over the table -/

theorem sum_map_range (n : ℕ) (f : ℕ → ℕ) :
    ((List.range n).map f).sum = ∑ b ∈ Finset.range n, f b := rfl

theorem sum_count {n : ℕ} {xs : List ℕ} (h : ∀ x ∈ xs, x < n) :
    ∑ b ∈ Finset.range n, xs.count b = xs.length := by
  have hmem : ∀ x ∈ (xs : Multiset ℕ), x ∈ Finset.range n := by
    intro x hx
    exact Finset.mem_range.mpr (h x (Multiset.mem_coe.mp hx))
  have hcard := Multiset.sum_count_eq_card hmem
  simpa only [Multiset.coe_count, Multiset.coe_card] using hcard

theorem ofNat_toNat_le (c : ℕ) : (UInt32.ofNat c).toNat ≤ c := by
  rw [UInt32.toNat_ofNat']
  exact Nat.mod_le _ _

theorem ofNat_toNat_eq_iff (c : ℕ) : (UInt32.ofNat c).toNat = c ↔ c < 4294967296 := by
  rw [UInt32.toNat_ofNat']
  omega

/- No occurrence is lost exactly when no counter has wrapped. -/
theorem sum_tally_eq_iff {n : ℕ} {xs : List ℕ} (h : ∀ x ∈ xs, x < n) :
    ((tally n xs).map UInt32.toNat).sum = xs.length ↔ ∀ b < n, xs.count b < 4294967296 := by
  have hsum : ((tally n xs).map UInt32.toNat).sum
      = ∑ b ∈ Finset.range n, (UInt32.ofNat (xs.count b)).toNat := by
    rw [tally, List.map_map]
    exact sum_map_range n _
  rw [hsum, ← sum_count h,
    Finset.sum_eq_sum_iff_of_le (fun b _ => ofNat_toNat_le (xs.count b))]
  simp only [Finset.mem_range, ofNat_toNat_eq_iff]

theorem square_eq_iff (c : UInt32) : (c * c).toNat = c.toNat ^ 2 ↔ c.toNat < 65536 := by
  rw [UInt32.toNat_mul, sq]
  have hlt : c.toNat * c.toNat < 4294967296 ↔ c.toNat < 65536 := by
    constructor
    · intro h
      by_contra hge
      have hsq : 65536 * 65536 ≤ c.toNat * c.toNat :=
        Nat.mul_le_mul (Nat.le_of_not_lt hge) (Nat.le_of_not_lt hge)
      omega
    · intro h
      have hsq : c.toNat * c.toNat ≤ 65535 * 65535 :=
        Nat.mul_le_mul (Nat.le_of_lt_succ h) (Nat.le_of_lt_succ h)
      omega
  rw [← hlt]
  omega

/- Neither the sum nor a square suffers from the width of the counters exactly
   when no number occurs `2 ^ 16` times. -/
theorem tally_exact_iff {n : ℕ} {xs : List ℕ} (h : ∀ x ∈ xs, x < n) :
    (((tally n xs).map UInt32.toNat).sum = xs.length ∧
      ∀ c ∈ tally n xs, (c * c).toNat = c.toNat ^ 2) ↔ ∀ b < n, xs.count b < 65536 := by
  rw [sum_tally_eq_iff h]
  simp only [square_eq_iff, tally, List.forall_mem_map, List.mem_range]
  constructor
  · intro ⟨hcount, hsquare⟩ b hb
    have hexact := (ofNat_toNat_eq_iff (xs.count b)).mpr (hcount b hb)
    have hlt := hsquare b hb
    omega
  · intro hlt
    refine ⟨?_, ?_⟩
    · intro b hb
      have := hlt b hb
      omega
    · intro b hb
      exact lt_of_le_of_lt (ofNat_toNat_le _) (hlt b hb)

end CLib.Tally
