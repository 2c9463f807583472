import Mathlib.Tactic.Common
import Mathlib.Data.Nat.Digits.Lemmas

/-!
# Numbers written in digits

Numbers in any base, most significant digit first and without leading zeros, for
any choice of the digits' bytes.
-/

namespace CLib

def digitsOf (base : ℕ) (digitOf : ℕ → UInt8) (n : ℕ) : List UInt8 :=
  (Nat.digits base n).reverse.map digitOf

def valueOf (base : ℕ) (digitValue : UInt8 → ℕ) (s : List UInt8) : ℕ :=
  s.foldl (fun n c => base * n + digitValue c) 0

theorem mem_digitsOf {base : ℕ} (hb : 1 < base) (digitOf : ℕ → UInt8) {n : ℕ} {c : UInt8}
    (h : c ∈ digitsOf base digitOf n) : ∃ d, d < base ∧ c = digitOf d := by
  obtain ⟨d, hd, rfl⟩ := List.mem_map.mp h
  exact ⟨d, Nat.digits_lt_base hb (List.mem_reverse.mp hd), rfl⟩

theorem digitsOf_ne_nil {base n : ℕ} (digitOf : ℕ → UInt8) (hn : n ≠ 0) :
    digitsOf base digitOf n ≠ [] := by
  simpa [digitsOf, Nat.digits_eq_nil_iff_eq_zero] using hn

theorem valueOf_digitsOf {base : ℕ} (hb : 1 < base) {digitOf : ℕ → UInt8} {digitValue : UInt8 → ℕ}
    (hd : ∀ d, d < base → digitValue (digitOf d) = d) (n : ℕ) :
    valueOf base digitValue (digitsOf base digitOf n) = n := by
  have hvalue : ∀ ds : List ℕ, (∀ d ∈ ds, d < base) →
      valueOf base digitValue (ds.reverse.map digitOf) = Nat.ofDigits base ds := by
    intro ds hds
    induction ds with
    | nil => rfl
    | cons d ds ih =>
      have hrest := ih fun e he => hds e (List.mem_cons_of_mem _ he)
      unfold valueOf at hrest ⊢
      rw [List.reverse_cons, List.map_append, List.foldl_append, hrest, Nat.ofDigits_cons]
      simp only [List.map_cons, List.map_nil, List.foldl_cons, List.foldl_nil,
        hd d (hds d (List.mem_cons_self ..))]
      omega
  rw [digitsOf, hvalue _ fun d hd => Nat.digits_lt_base hb hd, Nat.ofDigits_digits]

end CLib
