import KeepalivedDevel.CLib.Decimal
import Mathlib.Logic.Function.Basic

/-!
# `inet_ston` of `code_test/inet_aton_pton.c`

One pass over the text of an address, up to a slash, a dash or the end. The
local buffer `tmp` is the memory from its first byte on, so that a cursor that
left its `INADDRSZ` bytes would be seen to write behind it; only the first byte
is assigned before the loop.
-/

namespace KeepalivedDevel.InetAton
open CLib

def inaddrsz : ℕ := 4

abbrev dot : UInt8 := 46

-- '/' and '-'
def ends : List UInt8 := [47, 45]

def digits : List UInt8 := [48, 49, 50, 51, 52, 53, 54, 55, 56, 57]

structure Ston where
  tmp : ℕ → UInt8
  tp : ℕ
  octets : ℕ
  sawDigit : Bool

def Ston.start (tmp : ℕ → UInt8) : Ston where
  tmp := Function.update tmp 0 0
  tp := 0
  octets := 0
  sawDigit := false

/-- The body of the loop (`inet_aton_pton.c:21-38`); `none` where it returns 0. -/
def Ston.body (s : Ston) (ch : UInt8) : Option Ston :=
  match strchr ch digits with
  | some pch =>
    let new := (s.tmp s.tp).toNat * 10 + pch.text.length
    if new > 255 then none
    else
      let tmp := Function.update s.tmp s.tp (UInt8.ofNat new)
      if !s.sawDigit then
        if s.octets + 1 > 4 then none else some ⟨tmp, s.tp, s.octets + 1, true⟩
      else some ⟨tmp, s.tp, s.octets, s.sawDigit⟩
  | none =>
    if ch = dot ∧ s.sawDigit then
      if s.octets = 4 then none
      else some ⟨Function.update s.tmp (s.tp + 1) 0, s.tp + 1, s.octets, false⟩
    else none

def Ston.loop (s : Ston) : List UInt8 → Option Ston
  | [] => some s
  | ch :: addr => if ch ∈ ends then some s else (s.body ch).bind fun t => t.loop addr

/-- The returned value and the bytes at `dst` afterwards (`inet_aton_pton.c:9-46`). -/
def inetSton (tmp : ℕ → UInt8) (addr : CString) (dst : List UInt8) : ℤ × List UInt8 :=
  match (Ston.start tmp).loop addr.bytes with
  | none => (0, dst)
  | some s => if s.octets < 4 then (0, dst) else (1, (List.range inaddrsz).map s.tmp)

/-! ### Dotted quads -/

/- The part of the text that is looked at. -/
def stem (addr : List UInt8) : List UInt8 := addr.takeWhile (· ∉ ends)

structure IsOctet (p : List UInt8) : Prop where
  nonempty : p ≠ []
  decimal : ∀ c ∈ p, isdigit c = true
  small : digitsValue p ≤ 255

structure DottedQuad (s : List UInt8) : Prop where
  four : (s.splitOn dot).length = 4
  octet : ∀ p ∈ s.splitOn dot, IsOctet p

def octetByte (p : List UInt8) : UInt8 := UInt8.ofNat (digitsValue p)

/-! ### Single bytes -/

theorem strchr_digits {ch : UInt8} (h : isdigit ch = true) :
    ∃ pch, strchr ch digits = some pch ∧ pch.text.length = ch.toNat - 48 := by
  have hall : ∀ d < 10, ((strchr (digitByte d) digits).map fun f => f.text.length) = some d := by
    decide
  simp only [isdigit, Bool.and_eq_true, decide_eq_true_eq, UInt8.le_iff_toNat_le,
    UInt8.reduceToNat] at h
  have hd : ch = digitByte (ch.toNat - 48) := by
    rw [← UInt8.toNat_inj, toNat_digitByte (by omega)]
    omega
  have hch := hall (ch.toNat - 48) (by omega)
  rw [← hd, Option.map_eq_some_iff] at hch
  exact hch

theorem strchr_digits_none {ch : UInt8} (h : isdigit ch = false) : strchr ch digits = none := by
  apply strchr_eq_none
  intro hd
  have hall : digits.all isdigit = true := by decide
  rw [List.all_eq_true.mp hall ch hd] at h
  cases h

theorem digitsValue_concat {p : List UInt8} (hp : ∀ c ∈ p, isdigit c = true) {ch : UInt8}
    (h : isdigit ch = true) : digitsValue (p ++ [ch]) = digitsValue p * 10 + (ch.toNat - 48) := by
  have hpch : ∀ c ∈ p ++ [ch], isdigit c = true := by
    intro c hc
    rcases List.mem_append.mp hc with hc | hc
    · exact hp c hc
    · rw [List.mem_singleton.mp hc]
      exact h
  unfold digitsValue
  rw [List.takeWhile_eq_self_iff.mpr hp, List.takeWhile_eq_self_iff.mpr hpch, List.foldl_append]
  simp only [List.foldl_cons, List.foldl_nil]
  omega

theorem digitsValue_le_append {p : List UInt8} (q : List UInt8)
    (h : ∀ c ∈ p ++ q, isdigit c = true) : digitsValue p ≤ digitsValue (p ++ q) := by
  induction q generalizing p with
  | nil => simp
  | cons c q ih =>
    have hp : ∀ d ∈ p, isdigit d = true := fun d hd => h d (List.mem_append_left _ hd)
    have hc : isdigit c = true := h c (by simp)
    have hstep := digitsValue_concat hp hc
    have hq := ih (p := p ++ [c]) (by simpa using h)
    rw [List.append_assoc, List.singleton_append] at hq
    omega

/-! ### The state after part of the text -/

/-- The octets `os` are finished by their dots and `ds` is what has been read of
the next one. -/
structure Ston.Reads (s : Ston) (os : List (List UInt8)) (ds : List UInt8) : Prop where
  octet : ∀ p ∈ os, IsOctet p
  decimal : ∀ c ∈ ds, isdigit c = true
  small : digitsValue ds ≤ 255
  cursor : s.tp = os.length
  inside : s.tp < inaddrsz
  octets : s.octets = os.length + if ds = [] then 0 else 1
  sawDigit : s.sawDigit = decide (ds ≠ [])
  bytes : (List.range (s.tp + 1)).map s.tmp = (os ++ [ds]).map octetByte

theorem map_range_update (f : ℕ → UInt8) (n : ℕ) (v : UInt8) :
    (List.range (n + 1)).map (Function.update f n v) = (List.range n).map f ++ [v] := by
  rw [List.range_succ, List.map_append, List.map_singleton, Function.update_self]
  congr 1
  apply List.map_congr_left
  intro i hi
  rw [Function.update_of_ne (List.mem_range.mp hi).ne]

theorem reads_start (tmp : ℕ → UInt8) : (Ston.start tmp).Reads [] [] where
  octet := by simp
  decimal := by simp
  small := by decide
  cursor := rfl
  inside := Nat.zero_lt_succ 3
  octets := rfl
  sawDigit := rfl
  bytes := by
    show (List.range (0 + 1)).map (Function.update tmp 0 0) = _
    rw [map_range_update]
    rfl

section
variable {s : Ston} {os : List (List UInt8)} {ds : List UInt8} {ch : UInt8}

theorem Ston.Reads.before (h : s.Reads os ds) :
    (List.range s.tp).map s.tmp = os.map octetByte ∧ s.tmp s.tp = octetByte ds := by
  have hb := h.bytes
  rw [List.range_succ, List.map_append, List.map_append] at hb
  obtain ⟨hos, hds⟩ := List.append_inj' hb rfl
  exact ⟨hos, by simpa using hds⟩

theorem Ston.Reads.value (h : s.Reads os ds) : (s.tmp s.tp).toNat = digitsValue ds := by
  have hs := h.small
  rw [h.before.2, octetByte, UInt8.toNat_ofNat']
  omega

theorem Ston.Reads.digit (h : s.Reads os ds) (hch : isdigit ch = true)
    (hv : digitsValue (ds ++ [ch]) ≤ 255) : ∃ t, s.body ch = some t ∧ t.Reads os (ds ++ [ch]) := by
  obtain ⟨pch, hp, hlen⟩ := strchr_digits hch
  have hnew := digitsValue_concat h.decimal hch
  have hdecimal : ∀ c ∈ ds ++ [ch], isdigit c = true := by
    intro c hc
    rcases List.mem_append.mp hc with hc | hc
    · exact h.decimal c hc
    · rw [List.mem_singleton.mp hc]
      exact hch
  have hbytes : (List.range (s.tp + 1)).map
      (Function.update s.tmp s.tp (UInt8.ofNat (digitsValue (ds ++ [ch])))) =
        (os ++ [ds ++ [ch]]).map octetByte := by
    rw [map_range_update, h.before.1, List.map_append]
    rfl
  have hin := h.inside
  have hcur := h.cursor
  have hoct := h.octets
  unfold inaddrsz at hin
  unfold Ston.body
  simp only [hp, h.value, hlen, ← hnew, gt_iff_lt, Nat.not_lt.mpr hv, ite_false]
  by_cases hds : ds = []
  · have hsaw : s.sawDigit = false := by simp [h.sawDigit, hds]
    have hfour : ¬ 4 < s.octets + 1 := by
      simp only [hds, ite_true] at hoct
      omega
    simp only [hsaw, Bool.not_false, ite_true, hfour, ite_false, Option.some.injEq,
      exists_eq_left']
    exact ⟨h.octet, hdecimal, hv, hcur, h.inside, by simp [hoct, hds], by simp, hbytes⟩
  · have hsaw : s.sawDigit = true := by simp [h.sawDigit, hds]
    simp only [hsaw, Bool.not_true, Bool.false_eq_true, ite_false, Option.some.injEq,
      exists_eq_left']
    exact ⟨h.octet, hdecimal, hv, hcur, h.inside, by simp [hoct, hds], by simp, hbytes⟩

theorem Ston.Reads.dot (h : s.Reads os ds) (hds : ds ≠ []) (hos : os.length < 3) :
    ∃ t, s.body dot = some t ∧ t.Reads (os ++ [ds]) [] := by
  have hoct := h.octets
  have hcur := h.cursor
  have hsaw : s.sawDigit = true := by simp [h.sawDigit, hds]
  have hfour : s.octets ≠ 4 := by
    simp only [hds, ite_false] at hoct
    omega
  unfold Ston.body
  rw [strchr_digits_none (by decide)]
  simp only [hsaw, and_self, ite_true, hfour, ite_false, Option.some.injEq, exists_eq_left']
  refine ⟨?_, by simp, by decide, by simp [hcur], ?_, by simp [hoct, hds], rfl, ?_⟩
  · intro p hp
    rcases List.mem_append.mp hp with hp | hp
    · exact h.octet p hp
    · rw [List.mem_singleton.mp hp]
      exact ⟨hds, h.decimal, h.small⟩
  · show s.tp + 1 < 4
    omega
  · show (List.range (s.tp + 1 + 1)).map (Function.update s.tmp (s.tp + 1) 0) = _
    rw [map_range_update, h.bytes]
    simp [octetByte, digitsValue]

/- Every other byte ends the loop. -/
theorem Ston.Reads.body_some (h : s.Reads os ds) {t : Ston} (ht : s.body ch = some t) :
    (isdigit ch = true ∧ digitsValue (ds ++ [ch]) ≤ 255) ∨
      (ch = InetAton.dot ∧ ds ≠ [] ∧ os.length < 3) := by
  by_cases hch : isdigit ch = true
  · left
    obtain ⟨pch, hp, hlen⟩ := strchr_digits hch
    refine ⟨hch, ?_⟩
    by_contra hv
    unfold Ston.body at ht
    simp only [hp, h.value, hlen, ← digitsValue_concat h.decimal hch, gt_iff_lt,
      Nat.not_le.mp hv, ite_true] at ht
    cases ht
  · right
    unfold Ston.body at ht
    rw [strchr_digits_none (by simpa using hch)] at ht
    simp only [h.sawDigit, decide_eq_true_eq] at ht
    split at ht
    · next hd =>
      split at ht
      · cases ht
      · next hfour =>
        have hin := h.inside
        have hcur := h.cursor
        have hoct := h.octets
        simp only [hd.2, ite_false] at hoct
        unfold inaddrsz at hin
        exact ⟨hd.1, hd.2, by omega⟩
    · cases ht

end

/-! ### The loop -/

theorem loop_stem (s : Ston) (addr : List UInt8) : s.loop addr = s.loop (stem addr) := by
  induction addr generalizing s with
  | nil => rfl
  | cons ch addr ih =>
    by_cases hch : ch ∈ ends
    · simp [stem, Ston.loop, hch]
    · have hs : stem (ch :: addr) = ch :: stem addr := by simp [stem, hch]
      rw [hs]
      simp only [Ston.loop, hch, ite_false]
      congr 1
      funext t
      exact ih t

/- The octets of a text of which `ds` has been read already. -/
def pieces (ds text : List UInt8) : List (List UInt8) := (text.splitOn dot).modifyHead (ds ++ ·)

theorem pieces_nil (ds : List UInt8) : pieces ds [] = [ds] := by
  simp [pieces]

theorem pieces_nil_left (s : List UInt8) : pieces [] s = s.splitOn dot := by
  unfold pieces
  cases s.splitOn dot <;> rfl

theorem pieces_dot (ds text : List UInt8) :
    pieces ds (dot :: text) = ds :: pieces [] text := by
  rw [pieces_nil_left, pieces, List.splitOn_cons_eq_if_modifyHead]
  simp

theorem pieces_digit {ch : UInt8} (ds text : List UInt8) (h : ch ≠ dot) :
    pieces ds (ch :: text) = pieces (ds ++ [ch]) text := by
  unfold pieces
  rw [List.splitOn_cons_eq_if_modifyHead]
  cases text.splitOn dot <;> simp [h]

theorem pieces_cons (ds text : List UInt8) : ∃ q rest, pieces ds text = (ds ++ q) :: rest := by
  unfold pieces
  cases hs : text.splitOn dot with
  | nil => exact absurd hs (List.splitOn_ne_nil dot text)
  | cons q rest => exact ⟨q, rest, rfl⟩

theorem isdigit_ne_dot {ch : UInt8} (h : isdigit ch = true) : ch ≠ dot := by
  rintro rfl
  exact absurd h (by decide)

/- Whatever the loop gets through, it has read. -/
theorem Ston.Reads.loop {s t : Ston} {os : List (List UInt8)} {ds text : List UInt8}
    (h : s.Reads os ds) (hends : ∀ c ∈ text, c ∉ ends) (ht : s.loop text = some t) :
    ∃ os' ds', t.Reads os' ds' ∧ os' ++ [ds'] = os ++ pieces ds text := by
  induction text generalizing s os ds with
  | nil =>
    cases ht
    exact ⟨os, ds, h, by rw [pieces_nil]⟩
  | cons ch text ih =>
    have htext : ∀ c ∈ text, c ∉ ends := fun c hc => hends c (List.mem_cons_of_mem _ hc)
    rw [Ston.loop, if_neg (hends ch (List.mem_cons_self ..)), Option.bind_eq_some_iff] at ht
    obtain ⟨u, hu, ht⟩ := ht
    rcases h.body_some hu with ⟨hch, hv⟩ | ⟨rfl, hds, hos⟩
    · obtain ⟨u', hu', hr⟩ := h.digit hch hv
      rw [hu, Option.some.injEq] at hu'
      subst hu'
      rw [pieces_digit _ _ (isdigit_ne_dot hch)]
      exact ih hr htext ht
    · obtain ⟨u', hu', hr⟩ := h.dot hds hos
      rw [hu, Option.some.injEq] at hu'
      subst hu'
      rw [pieces_dot, List.append_cons]
      exact ih hr htext ht

theorem Ston.Reads.loop_isSome {s : Ston} {os : List (List UInt8)} {ds text : List UInt8}
    (h : s.Reads os ds) (hends : ∀ c ∈ text, c ∉ ends)
    (hlen : os.length + (pieces ds text).length ≤ 4)
    (hoct : ∀ p ∈ pieces ds text, IsOctet p) : (s.loop text).isSome := by
  induction text generalizing s os ds with
  | nil => rfl
  | cons ch text ih =>
    have htext : ∀ c ∈ text, c ∉ ends := fun c hc => hends c (List.mem_cons_of_mem _ hc)
    rw [Ston.loop, if_neg (hends ch (List.mem_cons_self ..))]
    by_cases hdot : ch = InetAton.dot
    · subst hdot
      rw [pieces_dot] at hlen hoct
      obtain ⟨q, rest, hq⟩ := pieces_cons [] text
      have hos : os.length < 3 := by
        rw [hq, List.length_cons, List.length_cons] at hlen
        omega
      obtain ⟨t, ht, hr⟩ := h.dot (hoct ds (List.mem_cons_self ..)).nonempty hos
      rw [ht]
      refine ih hr htext ?_ fun p hp => hoct p (List.mem_cons_of_mem _ hp)
      rw [List.length_cons] at hlen
      rw [List.length_append, List.length_singleton]
      omega
    · rw [pieces_digit _ _ hdot] at hlen hoct
      obtain ⟨q, rest, hq⟩ := pieces_cons (ds ++ [ch]) text
      -- the octet that the byte belongs to bounds what is read of it so far
      have hfirst : IsOctet (ds ++ [ch] ++ q) := hoct _ (by simp [hq])
      have hv := digitsValue_le_append q hfirst.decimal
      obtain ⟨t, ht, hr⟩ := h.digit (hfirst.decimal ch (by simp)) (hv.trans hfirst.small)
      rw [ht]
      exact ih hr htext hlen hoct

theorem not_mem_ends_stem (addr : List UInt8) : ∀ c ∈ stem addr, c ∉ ends := by
  intro c hc
  have hp := List.mem_takeWhile_imp hc
  simpa using hp

/-! ### The function -/

theorem inetSton_quad (tmp : ℕ → UInt8) (addr : CString) (dst : List UInt8)
    (h : DottedQuad (stem addr.bytes)) :
    inetSton tmp addr dst = (1, ((stem addr.bytes).splitOn dot).map octetByte) := by
  have hends := not_mem_ends_stem addr.bytes
  have hsome := (reads_start tmp).loop_isSome hends (by simp [pieces_nil_left, h.four])
    (by simpa [pieces_nil_left] using h.octet)
  obtain ⟨t, ht⟩ := Option.isSome_iff_exists.mp hsome
  obtain ⟨os, ds, hr, hpieces⟩ := (reads_start tmp).loop hends ht
  rw [List.nil_append, pieces_nil_left] at hpieces
  have hlen := congrArg List.length hpieces
  rw [h.four, List.length_append, List.length_singleton] at hlen
  have hds : IsOctet ds := h.octet ds (by simp [← hpieces])
  have hoctets := hr.octets
  have hcursor := hr.cursor
  have hbytes := hr.bytes
  simp only [hds.nonempty, ite_false] at hoctets
  have htp : t.tp + 1 = inaddrsz := by
    show t.tp + 1 = 4
    omega
  rw [htp, hpieces] at hbytes
  unfold inetSton
  rw [loop_stem, ht]
  simp only [hbytes]
  rw [if_neg (by omega)]

theorem inetSton_not_quad (tmp : ℕ → UInt8) (addr : CString) (dst : List UInt8)
    (h : ¬ DottedQuad (stem addr.bytes)) : inetSton tmp addr dst = (0, dst) := by
  unfold inetSton
  rw [loop_stem]
  cases ht : (Ston.start tmp).loop (stem addr.bytes) with
  | none => rfl
  | some t =>
    obtain ⟨os, ds, hr, hpieces⟩ := (reads_start tmp).loop (not_mem_ends_stem addr.bytes) ht
    rw [List.nil_append, pieces_nil_left] at hpieces
    have hoctets := hr.octets
    have hcursor := hr.cursor
    have hinside := hr.inside
    unfold inaddrsz at hinside
    -- four octets would make the text a dotted quad
    have hfew : t.octets < 4 := by
      by_contra hfour
      have hds : ds ≠ [] := by
        rintro rfl
        simp only [ite_true] at hoctets
        omega
      simp only [hds, ite_false] at hoctets
      apply h
      refine ⟨?_, ?_⟩
      · rw [← hpieces, List.length_append, List.length_singleton]
        omega
      · intro p hp
        rw [← hpieces] at hp
        rcases List.mem_append.mp hp with hp | hp
        · exact hr.octet p hp
        · rw [List.mem_singleton.mp hp]
          exact ⟨hds, hr.decimal, hr.small⟩
    simp only [hfew, ite_true]

theorem loop_inside {tmp : ℕ → UInt8} {addr done : List UInt8} (hd : done <+: stem addr) {s : Ston}
    (hs : (Ston.start tmp).loop done = some s) : s.tp < inaddrsz := by
  have hends : ∀ c ∈ done, c ∉ ends := fun c hc => not_mem_ends_stem addr c (hd.subset hc)
  obtain ⟨os, ds, hr, -⟩ := (reads_start tmp).loop hends hs
  exact hr.inside

theorem inetSton_accepts_quads (tmp : ℕ → UInt8) (addr : CString) (dst : List UInt8) :
    ((inetSton tmp addr dst).1 = 1 ↔ DottedQuad (stem addr.bytes)) ∧
      (DottedQuad (stem addr.bytes) →
        (inetSton tmp addr dst).2 = ((stem addr.bytes).splitOn dot).map octetByte) ∧
      (¬ DottedQuad (stem addr.bytes) → inetSton tmp addr dst = (0, dst)) ∧
      ∀ done, done <+: stem addr.bytes → ∀ s, (Ston.start tmp).loop done = some s →
        s.tp < inaddrsz := by
  refine ⟨⟨?_, ?_⟩, ?_, inetSton_not_quad tmp addr dst, fun done hd s hs => loop_inside hd hs⟩
  · intro h
    by_contra hq
    rw [inetSton_not_quad tmp addr dst hq] at h
    cases h
  · intro hq
    rw [inetSton_quad tmp addr dst hq]
  · intro hq
    rw [inetSton_quad tmp addr dst hq]

end KeepalivedDevel.InetAton
