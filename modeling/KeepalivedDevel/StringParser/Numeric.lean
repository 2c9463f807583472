import KeepalivedDevel.CLib.CChar
import KeepalivedDevel.StringParser.Escapes

/-!
# Numeric escapes

What a backslash in front of `x` and hexadecimal digits, or in front of octal
digits, does in one pass of the inner loop. The byte is the same whether `char`
is signed or not: only the low 8 bits of the `int` values that the digits are
put together from are kept.
-/

namespace KeepalivedDevel.StringParser
open CLib CLib.While

/-! ### The digits in `int` arithmetic -/

def hexDigitInt (t : CharType) (c : UInt8) : BitVec 32 :=
  if isdigit c then promote t c - 48 else 10 + promote t c - (if isupper c then 65 else 97)

/- `op_char <<= 4` and `op_char |= ...` (`string_parser.c:65-66`). -/
def hexStep (t : CharType) (opChar c : UInt8) : UInt8 :=
  let opChar := toChar (promote t opChar <<< 4)
  toChar (promote t opChar ||| hexDigitInt t c)

/- `op_char <<= 3` and `op_char += ...` (`string_parser.c:73-74`). -/
def octalStep (t : CharType) (opChar c : UInt8) : UInt8 :=
  let opChar := toChar (promote t opChar <<< 3)
  toChar (promote t opChar + (promote t c - 48))

theorem toChar_hexDigitInt (t : CharType) (c : UInt8) : toChar (hexDigitInt t c) = hexDigit c := by
  unfold hexDigitInt hexDigit
  split_ifs <;> simp only [toChar_sub, toChar_add, toChar_promote] <;> rfl

theorem hexStep_eq (t : CharType) (opChar c : UInt8) :
    hexStep t opChar c = opChar <<< 4 ||| hexDigit c := by
  have hshift := toChar_shiftLeft (promote t opChar) (k := 4) (by decide)
  rw [toChar_promote] at hshift
  simp only [hexStep]
  rw [toChar_or, toChar_promote, toChar_hexDigitInt]
  exact congrArg (· ||| hexDigit c) hshift

theorem octalStep_eq (t : CharType) (opChar c : UInt8) :
    octalStep t opChar c = (opChar <<< 3) + (c - 48) := by
  have hshift := toChar_shiftLeft (promote t opChar) (k := 3) (by decide)
  rw [toChar_promote] at hshift
  simp only [octalStep]
  rw [toChar_add, toChar_sub, toChar_promote, toChar_promote]
  exact congrArg (· + (c - 48)) hshift

/- Where one step is exact modulo 256, so are all of them together. -/
theorem foldl_step_eq {base : ℕ} {step : UInt8 → UInt8 → UInt8} {ds : List UInt8}
    (hstep : ∀ d ∈ ds, ∀ v, step v d = UInt8.ofNat (base * v.toNat + digitValue d)) (n : ℕ) :
    ds.foldl step (UInt8.ofNat n) =
      UInt8.ofNat (ds.foldl (fun v d => base * v + digitValue d) n) := by
  induction ds generalizing n with
  | nil => rfl
  | cons d ds ih =>
    obtain ⟨hd, hrest⟩ := List.forall_mem_cons.mp hstep
    have hmod := ofNat_foldl_mod base n (d :: ds)
    rw [List.foldl_cons] at hmod
    rw [List.foldl_cons, hd, UInt8.toNat_ofNat', ih hrest, hmod]

theorem hexSteps_eq (t : CharType) {ds : List UInt8} (hds : ∀ d ∈ ds, isxdigit d = true) :
    ds.foldl (hexStep t) 0 = UInt8.ofNat (digitsValue 16 ds) := by
  refine foldl_step_eq ?_ 0
  intro d hd v
  rw [hexStep_eq, hex_step v (hds d hd)]

theorem octalSteps_eq (t : CharType) {ds : List UInt8} (hds : ∀ d ∈ ds, isOctal d = true) :
    ds.foldl (octalStep t) 0 = UInt8.ofNat (digitsValue 8 ds) := by
  refine foldl_step_eq ?_ 0
  intro d hd v
  rw [octalStep_eq, octal_step v (hds d hd)]

/-! ### One pass of the inner loop -/

/-- A maximal run of at least one digit, with what follows it. -/
structure Digits (digit : UInt8 → Bool) where
  run : List UInt8
  tail : List UInt8
  nonempty : run ≠ []
  digits : ∀ d ∈ run, digit d = true
  maximal : ∀ d ∈ tail.head?, digit d = false

def Digits.text {digit : UInt8 → Bool} (ds : Digits digit) : List UInt8 := ds.run ++ ds.tail

theorem Digits.takeWhile_text {digit : UInt8 → Bool} (ds : Digits digit) :
    ds.text.takeWhile digit = ds.run := by
  have htail : ds.tail.takeWhile digit = [] := by
    cases h : ds.tail with
    | nil => rfl
    | cons d tail =>
      have hd := ds.maximal d (by rw [h]; rfl)
      simp [hd]
  rw [Digits.text, List.takeWhile_append_of_pos ds.digits, htail, List.append_nil]

theorem escapeAt_hex (ds : Digits isxdigit) :
    escapeAt (120 :: ds.text) = some (1 + ds.run.length, UInt8.ofNat (digitsValue 16 ds.run)) := by
  simp only [escapeAt, ds.takeWhile_text, ds.nonempty, ne_eq, not_false_eq_true, and_self, ite_true]

theorem escapeAt_octal (ds : Digits isOctal) :
    escapeAt ds.text =
      some ((ds.run.take 3).length, UInt8.ofNat (digitsValue 8 (ds.run.take 3))) := by
  obtain ⟨c, s, hcs⟩ := List.exists_cons_of_ne_nil ds.nonempty
  have hoctal : isOctal c = true := ds.digits c (by rw [hcs]; exact List.mem_cons_self)
  have hx : c ≠ 120 := by
    rintro rfl
    exact absurd hoctal (by decide)
  have htext : ds.text = c :: (s ++ ds.tail) := by rw [Digits.text, hcs, List.cons_append]
  have hrun := ds.takeWhile_text
  rw [htext] at hrun ⊢
  simp only [escapeAt, hx, false_and, ite_false, hoctal, ite_true, hrun]

theorem innerBody_escape {c : Cursor} {f : Found}
    (hf : strpbrk (delimiters c.curQuote) c.ofs = some f) (hch : f.ch = backslash)
    {n : ℕ} {v : UInt8} (he : escapeAt f.rest = some (n, v)) :
    innerBody c = .again ⟨f.rest.drop n, c.opBuf ++ f.text ++ [v], c.curQuote⟩ := by
  have hne : c.ofs ≠ [] := by
    intro h
    rw [h] at hf
    cases hf
  have hescape : escape f.rest = some (v, f.rest.drop n) := by
    rw [escape_eq, he]
    rfl
  simp only [innerBody, hne, ite_false, hf, delimiter, hch, ite_true, hescape]

theorem numeric_escape (c : Cursor) (f : Found)
    (hf : strpbrk (delimiters c.curQuote) c.ofs = some f) (hch : f.ch = backslash) (t : CharType) :
    (∀ ds : Digits isxdigit, f.rest = 120 :: ds.text →
      innerBody c = .again ⟨ds.tail,
        c.opBuf ++ f.text ++ [UInt8.ofNat (digitsValue 16 ds.run % 256)], c.curQuote⟩ ∧
      ds.run.foldl (hexStep t) 0 = UInt8.ofNat (digitsValue 16 ds.run % 256)) ∧
    (∀ ds : Digits isOctal, f.rest = ds.text →
      innerBody c = .again ⟨ds.run.drop 3 ++ ds.tail,
        c.opBuf ++ f.text ++ [UInt8.ofNat (digitsValue 8 (ds.run.take 3) % 256)], c.curQuote⟩ ∧
      (ds.run.take 3).foldl (octalStep t) 0 = UInt8.ofNat (digitsValue 8 (ds.run.take 3) % 256)) := by
  have hmod : ∀ n : ℕ, UInt8.ofNat (n % 256) = UInt8.ofNat n := fun n => UInt8.ofNat_mod_size
  simp only [hmod]
  refine ⟨?_, ?_⟩
  · intro ds hrest
    have he := escapeAt_hex ds
    have hdrop : f.rest.drop (1 + ds.run.length) = ds.tail := by
      rw [hrest, Nat.add_comm, List.drop_succ_cons, Digits.text, List.drop_left]
    rw [← hrest] at he
    rw [innerBody_escape hf hch he, hdrop]
    exact ⟨rfl, hexSteps_eq t ds.digits⟩
  · intro ds hrest
    have he := escapeAt_octal ds
    have hdrop : f.rest.drop (ds.run.take 3).length = ds.run.drop 3 ++ ds.tail := by
      have hsplit : ds.text = ds.run.take 3 ++ (ds.run.drop 3 ++ ds.tail) := by
        rw [← List.append_assoc, List.take_append_drop, Digits.text]
      rw [hrest, hsplit, List.drop_left]
    rw [← hrest] at he
    rw [innerBody_escape hf hch he, hdrop]
    exact ⟨rfl, octalSteps_eq t fun d hd => ds.digits d (List.mem_of_mem_take hd)⟩

def oneFfDigits : Digits isxdigit where
  run := [49, 102, 70]
  tail := [122]
  nonempty := by decide
  digits := List.all_eq_true.mp (by decide)
  maximal := by
    intro d hd
    obtain rfl := Option.some.inj hd
    decide

/- The line `a\x1fFz`: the value `0x1ff` gives the byte `0xff`. -/
theorem numeric_escape_line :
    innerBody ⟨[97, 92, 120, 49, 102, 70, 122], [], none⟩ = .again ⟨[122], [97, 255], none⟩ := by
  have hhex := (numeric_escape ⟨[97, 92, 120, 49, 102, 70, 122], [], none⟩
    ⟨[97], 92, [120, 49, 102, 70, 122]⟩ (by decide) rfl .signed).1
  have hline := (hhex oneFfDigits rfl).1
  have hvalue : digitsValue 16 oneFfDigits.run % 256 = 255 := by decide
  rw [hline, hvalue]
  rfl

end KeepalivedDevel.StringParser
