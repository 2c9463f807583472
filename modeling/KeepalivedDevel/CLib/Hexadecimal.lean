import KeepalivedDevel.CLib.CString
import KeepalivedDevel.CLib.Numerals

/-!
# Hexadecimal numbers

Numbers as `printf` writes them with `%x`, and their value when they are read
back.
-/

namespace CLib

def hexByte (d : ℕ) : UInt8 := if d < 10 then UInt8.ofNat (48 + d) else UInt8.ofNat (87 + d)

def hexDigitValue (c : UInt8) : ℕ :=
  if isdigit c then c.toNat - 48 else if isupper c then c.toNat - 55 else c.toNat - 87

def hexValue (s : List UInt8) : ℕ := valueOf 16 hexDigitValue (s.takeWhile isxdigit)

def hexNumeral (n : ℕ) : List UInt8 := if n = 0 then [48] else digitsOf 16 hexByte n

theorem hexByte_digit {d : ℕ} (h : d < 16) :
    isxdigit (hexByte d) = true ∧ hexDigitValue (hexByte d) = d := by
  have hall : (List.range 16).all (fun d => isxdigit (hexByte d) && hexDigitValue (hexByte d) == d)
      = true := by decide
  have hd := List.all_eq_true.mp hall d (List.mem_range.mpr h)
  simpa using hd

theorem isxdigit_hexNumeral (n : ℕ) : ∀ c ∈ hexNumeral n, isxdigit c = true := by
  intro c hc
  unfold hexNumeral at hc
  split at hc
  · rw [List.mem_singleton.mp hc]
    decide
  · obtain ⟨d, hd, rfl⟩ := mem_digitsOf (by decide) hexByte hc
    exact (hexByte_digit hd).1

theorem hexNumeral_ne_nil (n : ℕ) : hexNumeral n ≠ [] := by
  unfold hexNumeral
  split
  · simp
  · next hn => exact digitsOf_ne_nil hexByte hn

theorem hexValue_hexNumeral (n : ℕ) : hexValue (hexNumeral n) = n := by
  unfold hexValue
  rw [List.takeWhile_eq_self_iff.mpr (isxdigit_hexNumeral n)]
  unfold hexNumeral
  split
  · next hn =>
    rw [hn]
    rfl
  · exact valueOf_digitsOf (by decide) (fun d hd => (hexByte_digit hd).2) n

theorem hexNumeral_inj {m n : ℕ} (h : hexNumeral m = hexNumeral n) : m = n := by
  have hval := congrArg hexValue h
  rwa [hexValue_hexNumeral, hexValue_hexNumeral] at hval

theorem not_mem_hexNumeral {c : UInt8} (hc : isxdigit c = false) (n : ℕ) : c ∉ hexNumeral n := by
  intro h
  rw [isxdigit_hexNumeral n c h] at hc
  cases hc

end CLib
