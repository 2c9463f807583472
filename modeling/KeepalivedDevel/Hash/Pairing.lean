import KeepalivedDevel.CLib.Triangle
import KeepalivedDevel.Hash.Code
import Mathlib.Algebra.Ring.Divisibility.Basic
import Mathlib.Data.Int.ModEq
import Mathlib.Tactic.Linarith

/-!
# The values the hash functions compute

Where the `int` arithmetic of `get_hash_dc` is exact, the value it reduces is the
number of the pair in the triangular pairing, so different pairs have different
values. Where it is not, the value may be negative, and so may the index.
-/

namespace KeepalivedDevel.Hash

open CLib CLib.Triangle
open CLib.CInt (InRange wrap wrap_eq wrap_wrap_add wrap_add_wrap wrap_mul wrap_cases)

def Algorithm.value : Algorithm → ℤ → ℤ → ℤ
  | .dc => dcValue
  | .pqa => pqaValue

theorem getHash_eq (algorithm : Algorithm) (size vrid fd : ℤ) :
    algorithm.getHash size vrid fd = (algorithm.value vrid fd).tmod size := by
  cases algorithm <;> rfl

theorem dcValue_eq (vrid fd : ℤ) :
    dcValue vrid fd = wrap ((wrap ((vrid + fd) * (vrid + fd + 1))).tdiv 2 + vrid) := by
  rw [dcValue, wrap_wrap_add, wrap_mul]

theorem pqaValue_eq (vrid fd : ℤ) : pqaValue vrid fd = wrap (vrid * 31 + fd * 37) := by
  rw [pqaValue, wrap_wrap_add, wrap_add_wrap]

/-! ### Exact values -/

/- The value before the reduction, in unbounded arithmetic. -/
def Algorithm.exact : Algorithm → ℤ → ℤ → ℤ
  | .dc, vrid, fd => (vrid + fd) * (vrid + fd + 1) / 2 + vrid
  | .pqa, vrid, fd => vrid * 31 + fd * 37

/- No `int` expression of the function overflows. -/
def Algorithm.NoOverflow : Algorithm → ℤ → ℤ → Prop
  | .dc, vrid, fd =>
    InRange (vrid + fd) ∧ InRange (vrid + fd + 1) ∧ InRange ((vrid + fd) * (vrid + fd + 1)) ∧
      InRange (((vrid + fd) * (vrid + fd + 1)).tdiv 2 + vrid)
  | .pqa, vrid, fd => InRange (vrid * 31) ∧ InRange (fd * 37) ∧ InRange (vrid * 31 + fd * 37)

instance (algorithm : Algorithm) (vrid fd : ℤ) : Decidable (algorithm.NoOverflow vrid fd) :=
  match algorithm with
  | .dc => inferInstanceAs (Decidable (_ ∧ _))
  | .pqa => inferInstanceAs (Decidable (_ ∧ _))

theorem exact_nonneg (algorithm : Algorithm) {vrid fd : ℤ} (hvrid : 0 ≤ vrid) (hfd : 0 ≤ fd) :
    0 ≤ algorithm.exact vrid fd := by
  cases algorithm with
  | dc =>
    have hprod : 0 ≤ (vrid + fd) * (vrid + fd + 1) := by positivity
    simp only [Algorithm.exact]
    omega
  | pqa =>
    simp only [Algorithm.exact]
    omega

theorem value_eq_exact (algorithm : Algorithm) {vrid fd : ℤ} (hvrid : 0 ≤ vrid) (hfd : 0 ≤ fd)
    (h : algorithm.NoOverflow vrid fd) : algorithm.value vrid fd = algorithm.exact vrid fd := by
  cases algorithm with
  | dc =>
    obtain ⟨_, _, hprod, hsum⟩ := h
    have hnonneg : 0 ≤ (vrid + fd) * (vrid + fd + 1) := by positivity
    rw [Algorithm.value, dcValue_eq, wrap_eq hprod, wrap_eq hsum, Algorithm.exact,
      Int.tdiv_eq_ediv_of_nonneg hnonneg]
  | pqa =>
    obtain ⟨_, _, hsum⟩ := h
    rw [Algorithm.value, pqaValue_eq, wrap_eq hsum, Algorithm.exact]

theorem getHash_eq_exact (algorithm : Algorithm) {vrid fd : ℤ} (size : ℤ) (hvrid : 0 ≤ vrid)
    (hfd : 0 ≤ fd) (h : algorithm.NoOverflow vrid fd) :
    algorithm.getHash size vrid fd = algorithm.exact vrid fd % size := by
  rw [getHash_eq, value_eq_exact algorithm hvrid hfd h,
    Int.tmod_eq_emod_of_nonneg (exact_nonneg algorithm hvrid hfd)]

/-! ### Pairs and buckets -/

/-- A pair of non-negative numbers whose pairing value is computed without overflow. -/
structure Key where
  vrid : ℤ
  fd : ℤ
  vrid_nonneg : 0 ≤ vrid
  fd_nonneg : 0 ≤ fd
  exact : Algorithm.dc.NoOverflow vrid fd

theorem dcValue_pair (k : Key) : dcValue k.vrid k.fd = pair k.vrid.toNat k.fd.toNat := by
  have hvalue := value_eq_exact .dc k.vrid_nonneg k.fd_nonneg k.exact
  obtain ⟨vrid, hvrid⟩ := Int.eq_ofNat_of_zero_le k.vrid_nonneg
  obtain ⟨fd, hfd⟩ := Int.eq_ofNat_of_zero_le k.fd_nonneg
  simp only [Algorithm.value, Algorithm.exact, hvrid, hfd] at hvalue ⊢
  rw [hvalue, pair, tri, Int.toNat_natCast, Int.toNat_natCast]
  push_cast
  rfl

theorem key_eq_of_dcValue {k l : Key} (h : dcValue k.vrid k.fd = dcValue l.vrid l.fd) :
    k.vrid = l.vrid ∧ k.fd = l.fd := by
  rw [dcValue_pair, dcValue_pair] at h
  obtain ⟨hvrid, hfd⟩ := pair_inj (Int.ofNat.inj h)
  have hk := k.vrid_nonneg
  have hk' := k.fd_nonneg
  have hl := l.vrid_nonneg
  have hl' := l.fd_nonneg
  omega

theorem getHashDc_eq_emod (k : Key) (size : ℤ) :
    getHashDc size k.vrid k.fd = dcValue k.vrid k.fd % size := by
  have hnonneg : 0 ≤ dcValue k.vrid k.fd := by
    rw [dcValue_pair]
    exact Int.natCast_nonneg _
  rw [getHashDc, Int.tmod_eq_emod_of_nonneg hnonneg]

theorem getHashDc_of_lt (k : Key) {size : ℤ} (h : dcValue k.vrid k.fd < size) :
    getHashDc size k.vrid k.fd = dcValue k.vrid k.fd := by
  rw [getHashDc_eq_emod, dcValue_pair]
  rw [dcValue_pair] at h
  exact Int.emod_eq_of_lt (Int.natCast_nonneg _) h

/- Different pairs have different values, whatever the table. -/
theorem distinct_pairs_distinct_values (k l : Key) (hkl : (k.vrid, k.fd) ≠ (l.vrid, l.fd)) (size : ℤ) :
    dcValue k.vrid k.fd ≠ dcValue l.vrid l.fd ∧
    (getHashDc size k.vrid k.fd = getHashDc size l.vrid l.fd ↔
      dcValue k.vrid k.fd ≡ dcValue l.vrid l.fd [ZMOD size]) ∧
    (dcValue k.vrid k.fd < size → dcValue l.vrid l.fd < size →
      getHashDc size k.vrid k.fd ≠ getHashDc size l.vrid l.fd) := by
  have hvalues : dcValue k.vrid k.fd ≠ dcValue l.vrid l.fd := by
    intro heq
    obtain ⟨hvrid, hfd⟩ := key_eq_of_dcValue heq
    exact hkl (by rw [hvrid, hfd])
  refine ⟨hvalues, ?_, ?_⟩
  · rw [getHashDc_eq_emod, getHashDc_eq_emod, Int.ModEq]
  · intro hk hl
    rw [getHashDc_of_lt k hk, getHashDc_of_lt l hl]
    exact hvalues

theorem distinct_pairs_distinct_values_swapped :
    dcValue 1 2 ≠ dcValue 2 1 ∧
    (getHashDc 1 1 2 = getHashDc 1 2 1 ↔ dcValue 1 2 ≡ dcValue 2 1 [ZMOD 1]) ∧
    (dcValue 1 2 < 1 → dcValue 2 1 < 1 → getHashDc 1 1 2 ≠ getHashDc 1 2 1) :=
  distinct_pairs_distinct_values ⟨1, 2, by decide, by decide, by decide⟩
    ⟨2, 1, by decide, by decide, by decide⟩ (by decide) 1

/-! ### Indices outside the table -/

theorem tmod_valid_iff (x : ℤ) {size : ℤ} (hsize : 0 < size) :
    (0 ≤ x.tmod size ∧ x.tmod size < size) ↔ 0 ≤ x ∨ size ∣ x := by
  have hlt : x.tmod size < size := Int.tmod_lt_of_pos x hsize
  rcases lt_or_ge x 0 with hx | hx
  · have hneg : x.tmod size = -((-x) % size) := by
      rw [← Int.tmod_eq_emod_of_nonneg (by omega), Int.neg_tmod, neg_neg]
    have hmod := Int.emod_nonneg (-x) (ne_of_gt hsize)
    have hdvd : size ∣ x ↔ (-x) % size = 0 := by
      rw [← Int.dvd_iff_emod_eq_zero, Int.dvd_neg]
    rw [hdvd]
    omega
  · have hnonneg := Int.tmod_nonneg size hx
    omega

/- A condition on the arguments: the product, or the sum, that is formed modulo
   `2 ^ 32` stays in the non-negative half, or `vrid` makes up for it, or the
   remainder is zero. -/
def Algorithm.InTable : Algorithm → ℤ → ℤ → ℤ → Prop
  | .dc, size, vrid, fd =>
    let m := (vrid + fd) * (vrid + fd + 1) % 4294967296
    m < 2147483648 ∨ (4294967296 - m) / 2 ≤ vrid ∨ size ∣ (4294967296 - m) / 2 - vrid
  | .pqa, size, vrid, fd =>
    let m := (vrid * 31 + fd * 37) % 4294967296
    m < 2147483648 ∨ size ∣ 4294967296 - m

instance (algorithm : Algorithm) (size vrid fd : ℤ) : Decidable (algorithm.InTable size vrid fd) :=
  match algorithm with
  | .dc => inferInstanceAs (Decidable (_ ∨ _))
  | .pqa => inferInstanceAs (Decidable (_ ∨ _))

theorem dc_inTable_iff {size vrid fd : ℤ} (hvrid : 0 ≤ vrid ∧ vrid ≤ 255) :
    (0 ≤ dcValue vrid fd ∨ size ∣ dcValue vrid fd) ↔ Algorithm.dc.InTable size vrid fd := by
  simp only [Algorithm.InTable]
  rw [dcValue_eq]
  generalize (vrid + fd) * (vrid + fd + 1) = z
  have hm := Int.emod_nonneg z (show (4294967296 : ℤ) ≠ 0 by decide)
  have hm' := Int.emod_lt_of_pos z (show (0 : ℤ) < 4294967296 by decide)
  rcases wrap_cases z with ⟨hlow, hz⟩ | ⟨hhigh, hz⟩
  · rw [hz, Int.tdiv_eq_ediv_of_nonneg hm, wrap_eq (by unfold InRange; omega)]
    exact iff_of_true (.inl (by omega)) (.inl hlow)
  · have hdiv : (z % 4294967296 - 4294967296).tdiv 2 = -((4294967296 - z % 4294967296) / 2) := by
      rw [← neg_sub, Int.neg_tdiv, Int.tdiv_eq_ediv_of_nonneg (by omega)]
    rw [hz, hdiv, wrap_eq (by unfold InRange; omega), neg_add_eq_sub, dvd_sub_comm,
      or_iff_right (show ¬ z % 4294967296 < 2147483648 by omega), sub_nonneg]

theorem pqa_inTable_iff {size vrid fd : ℤ} :
    (0 ≤ pqaValue vrid fd ∨ size ∣ pqaValue vrid fd) ↔ Algorithm.pqa.InTable size vrid fd := by
  simp only [Algorithm.InTable]
  rw [pqaValue_eq]
  generalize vrid * 31 + fd * 37 = z
  have hm := Int.emod_nonneg z (show (4294967296 : ℤ) ≠ 0 by decide)
  have hm' := Int.emod_lt_of_pos z (show (0 : ℤ) < 4294967296 by decide)
  rcases wrap_cases z with ⟨hlow, hz⟩ | ⟨hhigh, hz⟩
  · rw [hz]
    exact iff_of_true (.inl hm) (.inl hlow)
  · rw [hz, dvd_sub_comm, or_iff_right (by omega), or_iff_right (by omega)]

theorem getHash_valid_iff (algorithm : Algorithm) {size vrid fd : ℤ} (hsize : 0 < size)
    (hvrid : 0 ≤ vrid ∧ vrid ≤ 255) :
    (0 ≤ algorithm.getHash size vrid fd ∧ algorithm.getHash size vrid fd < size) ↔
      algorithm.InTable size vrid fd := by
  rw [getHash_eq, tmod_valid_iff _ hsize]
  cases algorithm with
  | dc => exact dc_inTable_iff hvrid
  | pqa => exact pqa_inTable_iff

end KeepalivedDevel.Hash
