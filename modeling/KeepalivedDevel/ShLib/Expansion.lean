import KeepalivedDevel.CLib.Decimal
import KeepalivedDevel.CLib.Hexadecimal
import Mathlib.Data.Int.Notation

/-!
# Expansions of the shell

Patterns with `*` and the removal of the shortest suffix that matches one, the
fields of `awk`, and arithmetic in 64 bit integers with the numbers written in
decimal or by `printf`.
-/

namespace ShLib
open CLib

/-! ### Patterns -/

inductive Glob where
  | char (c : UInt8)
  | star
  deriving Repr, DecidableEq

def globMatch : List Glob → List UInt8 → Bool
  | [], s => s = []
  | .char _ :: _, [] => false
  | .char c :: p, d :: s => c = d && globMatch p s
  | .star :: p, s => s.tails.any (globMatch p)

/- What is in front of the shortest suffix that matches. -/
def beforeSuffix (p : List Glob) : List UInt8 → Option (List UInt8)
  | [] => if globMatch p [] then some [] else none
  | c :: s =>
    match beforeSuffix p s with
    | some t => some (c :: t)
    | none => if globMatch p (c :: s) then some [] else none

/-- The expansion `${s%p}`. -/
def removeShortest (p : List Glob) (s : List UInt8) : List UInt8 := (beforeSuffix p s).getD s

theorem globMatch_star (s : List UInt8) : globMatch [.star] s = true := by
  rw [globMatch, List.any_eq_true]
  exact ⟨[], by simp, by simp [globMatch]⟩

theorem globMatch_star_char_star (c : UInt8) (s : List UInt8) :
    globMatch [.star, .char c, .star] s = true ↔ c ∈ s := by
  rw [globMatch, List.any_eq_true]
  constructor
  · rintro ⟨t, ht, hm⟩
    have hsub := (List.mem_tails ..).mp ht
    cases t with
    | nil => cases hm
    | cons d t =>
      rw [globMatch, Bool.and_eq_true, decide_eq_true_eq] at hm
      rw [hm.1]
      exact hsub.mem (List.mem_cons_self ..)
  · intro hc
    obtain ⟨a, b, rfl⟩ := List.append_of_mem hc
    refine ⟨c :: b, (List.mem_tails ..).mpr (List.suffix_append a _), ?_⟩
    rw [globMatch, globMatch_star]
    simp

theorem beforeSuffix_append {p : List Glob} {t : List UInt8} (h : beforeSuffix p t = some [])
    (s : List UInt8) : beforeSuffix p (s ++ t) = some s := by
  induction s with
  | nil => exact h
  | cons c s ih => rw [List.cons_append, beforeSuffix, ih]

theorem beforeSuffix_cons {p : List Glob} {c : UInt8} {s : List UInt8}
    (hs : beforeSuffix p s = none) :
    beforeSuffix p (c :: s) = if globMatch p (c :: s) then some [] else none := by
  rw [beforeSuffix, hs]

/- Text none of whose bytes can start a match. -/
theorem beforeSuffix_none_append {d : UInt8} {p : List Glob} {a s : List UInt8}
    (ha : d ∉ a) (hs : beforeSuffix (.char d :: p) s = none) :
    beforeSuffix (.char d :: p) (a ++ s) = none := by
  induction a with
  | nil => exact hs
  | cons c a ih =>
    rw [List.mem_cons, not_or] at ha
    rw [List.cons_append, beforeSuffix_cons (ih ha.2)]
    simp [globMatch, ha.1]

theorem beforeSuffix_none {d : UInt8} {s : List UInt8} (p : List Glob) (hs : d ∉ s) :
    beforeSuffix (.char d :: p) s = none := by
  have hend : beforeSuffix (.char d :: p) [] = none := rfl
  have happend := beforeSuffix_none_append hs hend
  rwa [List.append_nil] at happend

theorem globMatch_char_char {d : UInt8} {s : List UInt8} (c e : UInt8) (p : List Glob)
    (hs : d ∉ s.head?) : globMatch (.char c :: .char d :: p) (e :: s) = false := by
  cases s with
  | nil => simp [globMatch]
  | cons f s =>
    have hne : d ≠ f := by
      rintro rfl
      exact hs rfl
    simp [globMatch, hne]

/-! ### Fields -/

/- The last field but one and the last field of a line; a line of one field is
`$0`. -/
def lastFields (seps s : List UInt8) : List UInt8 × List UInt8 :=
  match (s.splitOnP (· ∈ seps)).reverse with
  | last :: previous :: _ => (previous, last)
  | [last] => (last, last)
  | [] => ([], [])

theorem lastFields_append {seps : List UInt8} (s : List UInt8) {c d : UInt8} {a b : List UInt8}
    (hc : c ∈ seps) (hd : d ∈ seps) (ha : ∀ x ∈ a, x ∉ seps) (hb : ∀ x ∈ b, x ∉ seps) :
    lastFields seps (s ++ c :: (a ++ d :: b)) = (a, b) := by
  have hfirst : a.splitOnP (· ∈ seps) = [a] := List.splitOnP_eq_singleton (by simpa using ha)
  have hlast : b.splitOnP (· ∈ seps) = [b] := List.splitOnP_eq_singleton (by simpa using hb)
  have hfields : (s ++ c :: (a ++ d :: b)).splitOnP (· ∈ seps) =
      s.splitOnP (· ∈ seps) ++ [a, b] := by
    rw [List.splitOnP_append_cons _ _ (by simpa using hc),
      List.splitOnP_append_cons _ _ (by simpa using hd), hfirst, hlast]
    rfl
  simp [lastFields, hfields]

/-! ### Numbers -/

/- A value in the shell's arithmetic, which does not check for overflow. -/
def int64 (z : ℤ) : ℤ := z.bmod 18446744073709551616

/- `printf "%x"`: a negative number is written in two's complement. -/
def printfX (z : ℤ) : List UInt8 := hexNumeral (z % 18446744073709551616).toNat

/- `printf "%w.wd"` of a number that is not negative. -/
def zeroPadded (width n : ℕ) : List UInt8 :=
  List.replicate (width - (numeral n).length) 48 ++ numeral n

/- `printf "%d"` of `0x` and the digits: values out of range become the largest. -/
def printfD (s : List UInt8) : ℤ := min (hexValue s) 9223372036854775807

/- A number in an expression for `bc`. -/
def bcNumber (s : List UInt8) : Option ℤ :=
  match s with
  | 45 :: t => if t ≠ [] ∧ t.all isdigit then some (-(digitsValue t : ℤ)) else none
  | t => if t ≠ [] ∧ t.all isdigit then some (digitsValue t : ℤ) else none

theorem digitsValue_zeroPadded (width n : ℕ) : digitsValue (zeroPadded width n) = n := by
  have hzeros : ∀ k s, digitsValue (List.replicate k 48 ++ s) = digitsValue s := by
    intro k s
    induction k with
    | zero => rfl
    | succ k ih => exact ih
  rw [zeroPadded, hzeros, digitsValue_numeral]

theorem zeroPadded_inj {width m n : ℕ} (h : zeroPadded width m = zeroPadded width n) : m = n := by
  rw [← digitsValue_zeroPadded width m, h, digitsValue_zeroPadded]

theorem not_mem_zeroPadded {c : UInt8} (hc : isdigit c = false) (width n : ℕ) :
    c ∉ zeroPadded width n := by
  rw [zeroPadded, List.mem_append, not_or]
  refine ⟨fun hmem => ?_, not_mem_numeral hc n⟩
  rw [List.eq_of_mem_replicate hmem] at hc
  exact absurd hc (by decide)

theorem int64_eq {z : ℤ} (hlo : -9223372036854775808 ≤ z) (hhi : z < 9223372036854775808) :
    int64 z = z := by
  unfold int64
  apply Int.bmod_eq_of_le <;> omega

theorem int64_spec (z : ℤ) :
    -9223372036854775808 ≤ int64 z ∧ int64 z < 9223372036854775808 ∧
      ∃ k, z = int64 z + 18446744073709551616 * k := by
  unfold int64
  have hlo := Int.le_bmod (x := z) (m := 18446744073709551616) (by decide)
  have hhi := Int.bmod_lt (x := z) (m := 18446744073709551616) (by decide)
  refine ⟨by omega, by omega, (z - z.bmod 18446744073709551616) / 18446744073709551616, ?_⟩
  have hdvd := Int.dvd_self_sub_bmod (x := z) (m := 18446744073709551616)
  omega

/- Division and remainder truncate toward zero. -/
theorem tdiv_tmod_spec (z : ℤ) {k : ℤ} (hk : 0 < k) :
    z = k * z.tdiv k + z.tmod k ∧ (0 ≤ z → 0 ≤ z.tmod k ∧ z.tmod k < k) ∧
      (z ≤ 0 → -k < z.tmod k ∧ z.tmod k ≤ 0) := by
  refine ⟨(Int.mul_tdiv_add_tmod z k).symm, ?_, ?_⟩
  · intro hz
    exact ⟨Int.tmod_nonneg k hz, Int.tmod_lt_of_pos z hk⟩
  · intro hz
    have hneg := Int.tmod_nonneg k (a := -z) (by omega)
    have hlt := Int.tmod_lt_of_pos (-z) hk
    rw [Int.neg_tmod] at hneg hlt
    omega

theorem bcNumber_decimalText (z : ℤ) : bcNumber (decimalText z) = some z := by
  have hdigits : (numeral z.natAbs).all isdigit = true :=
    List.all_eq_true.mpr (isdigit_numeral z.natAbs)
  have hne := numeral_ne_nil z.natAbs
  unfold decimalText
  split
  · next hz =>
    simp only [bcNumber, hne, ne_eq, not_false_eq_true, hdigits, and_self, ite_true,
      digitsValue_numeral]
    congr 1
    omega
  · next hz =>
    unfold bcNumber
    split
    · next t ht =>
      rw [ht] at hdigits
      exact absurd hdigits (by simp [isdigit])
    · rw [if_pos ⟨hne, hdigits⟩, digitsValue_numeral]
      congr 1
      omega

theorem printfD_hexNumeral {n : ℕ} (h : n < 9223372036854775808) : printfD (hexNumeral n) = n := by
  rw [printfD, hexValue_hexNumeral]
  omega

theorem printfD_printfX {z : ℤ} (hlo : -9223372036854775808 ≤ z) (hhi : z < 9223372036854775808) :
    printfD (printfX z) = if 0 ≤ z then z else 9223372036854775807 := by
  unfold printfD printfX
  rw [hexValue_hexNumeral]
  split <;> omega

end ShLib
