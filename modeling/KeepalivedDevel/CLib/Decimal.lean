import KeepalivedDevel.CLib.CString
import KeepalivedDevel.CLib.Numerals
import Mathlib.Data.Int.Notation
import Mathlib.Tactic.Ring

/-!
# Decimal numbers

Numbers written in decimal without leading zeros, with a minus sign in front if
they are negative, and `atoi`, which reads the positive ones back.
-/

namespace CLib

def isspace (c : UInt8) : Bool := c = 32 || (9 ≤ c && c ≤ 13)

def digitsValue (s : List UInt8) : ℕ :=
  (s.takeWhile isdigit).foldl (fun n c => 10 * n + (c.toNat - 48)) 0

/- `atoi` on values that an `int` can hold. -/
def atoi (s : List UInt8) : ℤ :=
  match s.dropWhile isspace with
  | 45 :: t => - digitsValue t
  | 43 :: t => digitsValue t
  | t => digitsValue t

def digitByte (d : ℕ) : UInt8 := UInt8.ofNat (48 + d)

/- A positive number as `printf` writes it. -/
def decimal (n : ℕ) : List UInt8 := (Nat.digits 10 n).reverse.map digitByte

theorem toNat_digitByte {d : ℕ} (h : d < 10) : (digitByte d).toNat = 48 + d := by
  unfold digitByte
  rw [UInt8.toNat_ofNat']
  omega

theorem isdigit_digitByte {d : ℕ} (h : d < 10) : isdigit (digitByte d) = true := by
  have hd := toNat_digitByte h
  simp only [isdigit, Bool.and_eq_true, decide_eq_true_eq, UInt8.le_iff_toNat_le, hd,
    UInt8.reduceToNat]
  omega

theorem isdigit_decimal (n : ℕ) : ∀ c ∈ decimal n, isdigit c = true := by
  intro c hc
  obtain ⟨d, hd, rfl⟩ := mem_digitsOf (by decide) digitByte hc
  exact isdigit_digitByte hd

theorem digitsValue_decimal (n : ℕ) : digitsValue (decimal n) = n := by
  have hdigit : ∀ d, d < 10 → (digitByte d).toNat - 48 = d := by
    intro d hd
    rw [toNat_digitByte hd]
    omega
  unfold digitsValue
  rw [List.takeWhile_eq_self_iff.mpr (isdigit_decimal n)]
  exact valueOf_digitsOf (by decide) hdigit n

theorem decimal_head {n : ℕ} (hn : 0 < n) :
    ∃ c rest, decimal n = c :: rest ∧ 48 < c.toNat ∧ c.toNat ≤ 57 := by
  have hne : Nat.digits 10 n ≠ [] := Nat.digits_ne_nil_iff_ne_zero.mpr (by omega)
  have hlt : (Nat.digits 10 n).getLast hne < 10 :=
    Nat.digits_lt_base (by omega) (List.getLast_mem hne)
  have hpos : (Nat.digits 10 n).getLast hne ≠ 0 := Nat.getLast_digit_ne_zero 10 (by omega)
  refine ⟨digitByte ((Nat.digits 10 n).getLast hne), ((Nat.digits 10 n).dropLast.reverse).map digitByte,
    ?_, ?_, ?_⟩
  · unfold decimal
    conv_lhs => rw [← List.dropLast_append_getLast hne, List.reverse_append]
    rfl
  · rw [toNat_digitByte hlt]
    omega
  · rw [toNat_digitByte hlt]
    omega

theorem atoi_decimal {n : ℕ} (hn : 0 < n) : atoi (decimal n) = n := by
  obtain ⟨c, rest, hc, hlo, hhi⟩ := decimal_head hn
  have hspace : isspace c = false := by
    simp only [isspace, ← UInt8.toNat_inj, UInt8.le_iff_toNat_le, UInt8.reduceToNat,
      Bool.or_eq_false_iff, Bool.and_eq_false_iff, decide_eq_false_iff_not]
    omega
  have hminus : c ≠ 45 := by
    rintro rfl
    exact absurd hlo (by decide)
  have hplus : c ≠ 43 := by
    rintro rfl
    exact absurd hlo (by decide)
  have hvalue := digitsValue_decimal n
  rw [hc] at hvalue
  unfold atoi
  rw [hc, List.dropWhile_cons_of_neg (by simp [hspace])]
  split
  · simp_all
  · simp_all
  · rw [hvalue]

/- A number as `printf` and the shell write it: zero has its one digit. -/
def numeral (n : ℕ) : List UInt8 := if n = 0 then [48] else decimal n

theorem isdigit_numeral (n : ℕ) : ∀ c ∈ numeral n, isdigit c = true := by
  unfold numeral
  split
  · intro c hc
    rw [List.mem_singleton.mp hc]
    decide
  · exact isdigit_decimal n

theorem digitsValue_numeral (n : ℕ) : digitsValue (numeral n) = n := by
  unfold numeral
  split
  · rename_i hn
    rw [hn]
    decide
  · exact digitsValue_decimal n

theorem numeral_ne_nil (n : ℕ) : numeral n ≠ [] := by
  unfold numeral
  split
  · simp
  · next hn => exact digitsOf_ne_nil digitByte hn

theorem numeral_inj {m n : ℕ} (h : numeral m = numeral n) : m = n := by
  rw [← digitsValue_numeral m, h, digitsValue_numeral]

theorem not_mem_numeral {c : UInt8} (hc : isdigit c = false) (n : ℕ) : c ∉ numeral n := by
  intro h
  rw [isdigit_numeral n c h] at hc
  cases hc

theorem length_numeral_le {n k : ℕ} (hk : 0 < k) (hn : n < 10 ^ k) : (numeral n).length ≤ k := by
  unfold numeral
  split
  · exact hk
  · rw [decimal, List.length_map, List.length_reverse]
    exact (Nat.digits_length_le_iff (by decide) n).mpr hn

/- Digits right behind digits make one number. -/
theorem digitsValue_append {s t : List UInt8} (hs : ∀ c ∈ s, isdigit c = true)
    (ht : ∀ c ∈ t, isdigit c = true) :
    digitsValue (s ++ t) = digitsValue s * 10 ^ t.length + digitsValue t := by
  have hfold : ∀ (t : List UInt8) (n : ℕ), t.foldl (fun n c => 10 * n + (c.toNat - 48)) n =
      n * 10 ^ t.length + t.foldl (fun n c => 10 * n + (c.toNat - 48)) 0 := by
    intro t
    induction t with
    | nil => simp
    | cons c t ih =>
      intro n
      rw [List.foldl_cons, List.foldl_cons, ih, ih (10 * 0 + _), List.length_cons, Nat.pow_succ]
      ring
  have hall : ∀ c ∈ s ++ t, isdigit c = true := by
    intro c hc
    exact (List.mem_append.mp hc).elim (hs c) (ht c)
  unfold digitsValue
  rw [List.takeWhile_eq_self_iff.mpr hall, List.takeWhile_eq_self_iff.mpr hs,
    List.takeWhile_eq_self_iff.mpr ht, List.foldl_append, hfold]

/-! ### Negative numbers -/

def decimalText (z : ℤ) : List UInt8 :=
  if z < 0 then 45 :: numeral z.natAbs else numeral z.natAbs

theorem decimalText_natCast (n : ℕ) : decimalText n = numeral n := by
  rw [decimalText, if_neg (by omega), Int.natAbs_natCast]

/- None of the bytes is a blank or a delimiter. -/
theorem mem_decimalText {z : ℤ} {c : UInt8} (h : c ∈ decimalText z) : c = 45 ∨ isdigit c = true := by
  unfold decimalText at h
  split at h
  · rcases List.mem_cons.mp h with rfl | h
    · exact .inl rfl
    · exact .inr (isdigit_numeral _ c h)
  · exact .inr (isdigit_numeral _ c h)

theorem not_mem_decimalText {c : UInt8} (hc : isdigit c = false) (hm : c ≠ 45) (z : ℤ) :
    c ∉ decimalText z := by
  intro h
  rcases mem_decimalText h with rfl | hdigit
  · exact hm rfl
  · rw [hdigit] at hc
    cases hc

theorem decimalText_ne_nil (z : ℤ) : decimalText z ≠ [] := by
  unfold decimalText
  split
  · exact List.cons_ne_nil _ _
  · exact numeral_ne_nil _

/- A minus sign is not a digit, so the sign of the number can be told. -/
theorem numeral_ne_minus (m : ℕ) (s : List UInt8) : numeral m ≠ 45 :: s := by
  intro h
  exact not_mem_numeral (c := 45) (by decide) m (by simp [h])

theorem decimalText_injective : Function.Injective decimalText := by
  intro y z h
  unfold decimalText at h
  split at h <;> split at h
  · have habs := numeral_inj (List.cons.inj h).2
    omega
  · exact absurd h.symm (numeral_ne_minus _ _)
  · exact absurd h (numeral_ne_minus _ _)
  · have habs := numeral_inj h
    omega

end CLib
