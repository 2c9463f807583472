import KeepalivedDevel.StringParser.Reference
import Mathlib.Tactic.Ring

/-!
# Escapes: the byte arithmetic of the code against the reference

The code builds a numeric escape in one `char`, digit by digit, so the value is
truncated at every step; the reference takes the value of the whole digit
string modulo 256. Both take the same bytes of the line.
-/

namespace KeepalivedDevel.StringParser
open CLib

theorem ofNat_foldl_mod (base n : ℕ) (ds : List UInt8) :
    UInt8.ofNat (ds.foldl (fun v d => base * v + digitValue d) (n % 256)) =
      UInt8.ofNat (ds.foldl (fun v d => base * v + digitValue d) n) := by
  induction ds generalizing n with
  | nil =>
    apply UInt8.toNat_inj.mp
    simp only [List.foldl_nil, UInt8.toNat_ofNat']
    omega
  | cons d ds ih =>
    simp only [List.foldl_cons]
    rw [← ih (base * (n % 256) + digitValue d), ← ih (base * n + digitValue d)]
    have hm : (base * (n % 256) + digitValue d) % 256 = (base * n + digitValue d) % 256 := by
      rw [Nat.add_mod, Nat.mul_mod, Nat.mod_mod, ← Nat.mul_mod, ← Nat.add_mod]
    rw [hm]

theorem hexDigit_value {c : UInt8} (h : isxdigit c = true) :
    (hexDigit c).toNat = digitValue c ∧ digitValue c < 16 := by
  simp only [isxdigit, isdigit, Bool.or_eq_true, Bool.and_eq_true, decide_eq_true_eq,
    UInt8.le_iff_toNat_le, UInt8.reduceToNat] at h
  have hc := c.toNat_lt
  simp only [hexDigit, digitValue, isdigit, isupper, UInt8.le_iff_toNat_le, UInt8.reduceToNat,
    Bool.and_eq_true, decide_eq_true_eq]
  by_cases h9 : c.toNat ≤ 57
  · have h0 : 48 ≤ c.toNat := by omega
    simp only [h0, h9, and_self, ite_true, UInt8.toNat_sub, UInt8.reduceToNat]
    omega
  · by_cases hu : c.toNat ≤ 70
    · have h1 : 65 ≤ c.toNat ∧ c.toNat ≤ 90 := by omega
      simp only [h9, hu, h1, and_false, and_self, ite_false, ite_true, UInt8.toNat_sub,
        UInt8.toNat_add, UInt8.reduceToNat]
      omega
    · have h1 : ¬ (65 ≤ c.toNat ∧ c.toNat ≤ 90) := by omega
      simp only [h9, hu, h1, and_false, ite_false, UInt8.toNat_sub, UInt8.toNat_add,
        UInt8.reduceToNat]
      omega

theorem hex_step (v : UInt8) {c : UInt8} (h : isxdigit c = true) :
    v <<< 4 ||| hexDigit c = UInt8.ofNat (16 * v.toNat + digitValue c) := by
  obtain ⟨hd, hlt⟩ := hexDigit_value h
  apply UInt8.toNat_inj.mp
  simp only [UInt8.toNat_or, UInt8.toNat_shiftLeft, UInt8.reduceToNat, UInt8.toNat_ofNat', hd]
  have hs : v.toNat <<< (4 % 8) % 2 ^ 8 = (v.toNat % 16) <<< 4 := by
    simp only [Nat.shiftLeft_eq, Nat.reduceMod, Nat.reducePow]
    omega
  rw [hs, ← Nat.shiftLeft_add_eq_or_of_lt (by omega), Nat.shiftLeft_eq]
  omega

theorem hexDigits_eq (v : UInt8) (ofs : List UInt8) :
    hexDigits v ofs =
      (UInt8.ofNat ((ofs.takeWhile isxdigit).foldl (fun v d => 16 * v + digitValue d) v.toNat),
        ofs.dropWhile isxdigit) := by
  induction ofs generalizing v with
  | nil => simp [hexDigits]
  | cons c ofs ih =>
    by_cases hc : isxdigit c = true
    · rw [hexDigits, if_pos hc, ih, hex_step v hc]
      simp only [List.takeWhile_cons, List.dropWhile_cons, hc, ite_true, List.foldl_cons,
        UInt8.toNat_ofNat']
      rw [ofNat_foldl_mod]
    · simp [hexDigits, hc]

theorem octal_step (v : UInt8) {c : UInt8} (h : isOctal c = true) :
    (v <<< 3) + (c - 48) = UInt8.ofNat (8 * v.toNat + digitValue c) := by
  simp only [isOctal, Bool.and_eq_true, decide_eq_true_eq, UInt8.le_iff_toNat_le,
    UInt8.reduceToNat] at h
  have hv := v.toNat_lt
  have hle : c.toNat ≤ 57 := by omega
  apply UInt8.toNat_inj.mp
  simp only [UInt8.toNat_add, UInt8.toNat_shiftLeft, UInt8.toNat_sub, UInt8.reduceToNat,
    UInt8.toNat_ofNat', digitValue, UInt8.le_iff_toNat_le, hle, ite_true, Nat.shiftLeft_eq,
    Nat.reduceMod, Nat.reducePow]
  omega

theorem first_octal {c : UInt8} (h : isOctal c = true) : c - 48 = UInt8.ofNat (digitValue c) := by
  have hs := octal_step 0 h
  simpa using hs

theorem octalDigit_eq (n : ℕ) (ofs : List UInt8) :
    octalDigit (UInt8.ofNat n) ofs =
      (UInt8.ofNat (((ofs.takeWhile isOctal).take 1).foldl (fun v d => 8 * v + digitValue d) n),
        ofs.drop ((ofs.takeWhile isOctal).take 1).length) := by
  cases ofs with
  | nil => simp [octalDigit]
  | cons c ofs =>
    by_cases hc : isOctal c = true
    · have hm := ofNat_foldl_mod 8 n [c]
      simp only [List.foldl_cons, List.foldl_nil] at hm
      simp only [octalDigit, hc, ite_true, octal_step _ hc, List.takeWhile_cons,
        UInt8.toNat_ofNat', List.take_succ_cons, List.take_zero, List.foldl_cons, List.foldl_nil,
        List.length_cons, List.length_nil, List.drop_succ_cons, List.drop_zero]
      exact congrArg (·, ofs) hm
    · simp [octalDigit, hc]

theorem octal_escape {c : UInt8} (hc : isOctal c = true) (s : List UInt8) :
    octalDigit (octalDigit (c - 48) s).1 (octalDigit (c - 48) s).2 =
      (UInt8.ofNat (digitsValue 8 (((c :: s).takeWhile isOctal).take 3)),
        (c :: s).drop (((c :: s).takeWhile isOctal).take 3).length) := by
  rw [first_octal hc]
  cases s with
  | nil => simp [octalDigit, hc, digitsValue]
  | cons d s =>
    by_cases hd : isOctal d = true
    · have h1 : octalDigit (UInt8.ofNat (digitValue c)) (d :: s) =
          (UInt8.ofNat (8 * digitValue c + digitValue d), s) := by
        simp [octalDigit_eq, hd]
      rw [h1, octalDigit_eq]
      simp [hc, hd, digitsValue]
    · simp [octalDigit, hc, hd, digitsValue]

theorem switchEscape_eq (c : UInt8) : switchEscape c = (controlEscapes.lookup c).getD c := by
  unfold switchEscape
  split_ifs with ha hb hf hn hr ht hv
  · rw [ha]; rfl
  · rw [hb]; rfl
  · rw [hf]; rfl
  · rw [hn]; rfl
  · rw [hr]; rfl
  · rw [ht]; rfl
  · rw [hv]; rfl
  · have hl : controlEscapes.lookup c = none := by
      simp [controlEscapes, List.lookup_eq_none_iff, ha, hb, hf, hn, hr, ht, hv]
    rw [hl, Option.getD_none]

theorem startsHex_iff (s : List UInt8) : startsHex s = true ↔ s.takeWhile isxdigit ≠ [] := by
  cases s with
  | nil => simp [startsHex]
  | cons c s => by_cases hc : isxdigit c = true <;> simp [startsHex, hc]

theorem escape_eq (s : List UInt8) :
    escape s = (escapeAt s).map fun p => (p.2, s.drop p.1) := by
  cases s with
  | nil => rfl
  | cons c s =>
    by_cases hx : c = 120 ∧ s.takeWhile isxdigit ≠ []
    · have hh : startsHex s = true := (startsHex_iff s).mpr hx.2
      have hdrop := drop_length_takeWhile isxdigit s
      simp only [escape, escapeAt, hx.1, hx.2, hh, hexDigits_eq, digitsValue, Bool.and_true,
        decide_true, ite_true, ne_eq, not_false_eq_true, and_self, Option.map_some,
        Nat.add_comm 1, List.drop_succ_cons, hdrop]
      rfl
    · have hh : (c = 120 && startsHex s) = false := by
        rw [Bool.and_eq_false_iff]
        by_cases h : c = 120
        · right
          have := mt (startsHex_iff s).mp (fun hn => hx ⟨h, hn⟩)
          simpa using this
        · left
          simp [h]
      by_cases ho : isOctal c = true
      · simp only [escape, escapeAt, hh, hx, ho, ite_true, ite_false, Bool.false_eq_true,
          octal_escape ho, Option.map_some]
      · simp only [escape, escapeAt, hh, hx, ho, ite_false, Bool.false_eq_true, switchEscape_eq,
          Option.map_some, List.drop_succ_cons, List.drop_zero]

theorem syms_escape {s ofs : List UInt8} {v : UInt8} (h : escape s = some (v, ofs)) :
    syms (backslash :: s) = .lit v :: syms ofs := by
  rw [escape_eq, Option.map_eq_some_iff] at h
  obtain ⟨⟨n, w⟩, he, hp⟩ := h
  cases hp
  exact syms_lit he

theorem escape_none {s : List UInt8} (h : escape s = none) : s = [] := by
  cases s with
  | nil => rfl
  | cons c s =>
    simp only [escape] at h
    split at h
    · cases h
    · split at h <;> cases h

end KeepalivedDevel.StringParser
