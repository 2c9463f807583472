import KeepalivedDevel.ShLib.Expansion
import KeepalivedDevel.CLib.Text

/-!
# Addresses and numbers in `configs/1173.sh`

The script counts through ranges of addresses with numbers: `ip_to_num` makes a
number of the last two parts of an address, the first of them less one, and
`num_to_ip` puts such a number behind a net. Without a one to take from the third
part the number is negative, and the way back rounds toward zero.
-/

namespace KeepalivedDevel.Script1173
open CLib ShLib

abbrev dot : UInt8 := 46
abbrev colon : UInt8 := 58

/-! ### The functions (`1173.sh:5-35`, `1173.sh:185-189`) -/

def numToIp (testNum : ℤ) (testNet : List UInt8) : List UInt8 :=
  if dot ∈ testNet then
    testNet ++ dot :: (decimalText (int64 ((int64 testNum).tdiv 256 + 1)) ++
      dot :: decimalText ((int64 testNum).tmod 256))
  else
    testNet ++ colon :: colon :: (printfX (int64 ((int64 testNum).tdiv 65536 + 1)) ++
      colon :: printfX ((int64 testNum).tmod 65536))

-- awk -F '[.|:]'
def separators : List UInt8 := [dot, 124, colon]

/- What `bc` prints; `none` where it is given no number. -/
def ipToNum (testIp : List UInt8) : Option ℤ :=
  let parts := lastFields separators testIp
  if colon ∈ testIp then some ((printfD parts.1 - 1) * 65536 + printfD parts.2)
  else
    match bcNumber parts.1, bcNumber parts.2 with
    | some part3, some part4 => some ((part3 - 1) * 256 + part4)
    | _, _ => none

/- VIP_NET and RIP_NET, with the patterns `::*` and `.*.*`. -/
def netOf (ip : List UInt8) : List UInt8 :=
  if colon ∈ ip then removeShortest [.char colon, .char colon, .star] ip
  else removeShortest [.char dot, .star, .char dot, .star] ip

/-! ### Addresses -/

structure V4 where
  a : ℕ
  b : ℕ
  c : ℕ
  d : ℕ
  octets : a < 256 ∧ b < 256 ∧ c < 256 ∧ d < 256

def V4.net (x : V4) : List UInt8 := numeral x.a ++ dot :: numeral x.b

def V4.text (x : V4) : List UInt8 := x.net ++ dot :: (numeral x.c ++ dot :: numeral x.d)

/- An address `P::h:l`. -/
structure V6 where
  groups : List ℕ
  h : ℕ
  l : ℕ
  words : (∀ g ∈ groups, g < 65536) ∧ h < 65536 ∧ l < 65536

def V6.net (x : V6) : List UInt8 := [colon].intercalate (x.groups.map hexNumeral)

def V6.text (x : V6) : List UInt8 :=
  x.net ++ colon :: colon :: (hexNumeral x.h ++ colon :: hexNumeral x.l)

theorem separator_not_digit {c : UInt8} (h : c ∈ separators) :
    isdigit c = false ∧ isxdigit c = false ∧ c ≠ 45 := by
  simp only [separators, List.mem_cons, List.not_mem_nil, or_false] at h
  rcases h with rfl | rfl | rfl <;> decide

/-! ### Four octets -/

theorem V4.net_bytes (x : V4) : dot ∈ x.net ∧ colon ∉ x.net := by
  have ha := not_mem_numeral (c := colon) rfl x.a
  have hb := not_mem_numeral (c := colon) rfl x.b
  simp only [V4.net, List.mem_append, List.mem_cons, true_or, or_true, ha, hb, or_false, false_or,
    true_and]
  decide

theorem ipToNum_dotted {net : List UInt8} (hnet : colon ∉ net) (p q : ℤ) :
    ipToNum (net ++ dot :: (decimalText p ++ dot :: decimalText q)) =
      some ((p - 1) * 256 + q) := by
  have hp : ∀ z : ℤ, ∀ c ∈ decimalText z, c ∉ separators := by
    intro z c hc hs
    obtain ⟨hd, _, hm⟩ := separator_not_digit hs
    exact not_mem_decimalText hd hm z hc
  have hcolon : colon ∉ net ++ dot :: (decimalText p ++ dot :: decimalText q) := by
    have hz : ∀ z : ℤ, colon ∉ decimalText z := fun z => not_mem_decimalText rfl (by decide) z
    simp only [List.mem_append, List.mem_cons, hnet, hz, or_false, false_or]
    decide
  rw [ipToNum, if_neg hcolon, lastFields_append net (by decide) (by decide) (hp p) (hp q)]
  simp only [bcNumber_decimalText]

theorem numToIp_dotted {net : List UInt8} (hnet : dot ∈ net) (n : ℤ) :
    numToIp n net = net ++ dot :: (decimalText ((int64 n).tdiv 256 + 1) ++
      dot :: decimalText ((int64 n).tmod 256)) := by
  obtain ⟨hlo, hhi, -⟩ := int64_spec n
  obtain ⟨hdiv, hpos, hneg⟩ := tdiv_tmod_spec (int64 n) (k := 256) (by decide)
  have hwrap : int64 ((int64 n).tdiv 256 + 1) = (int64 n).tdiv 256 + 1 := by
    apply int64_eq <;> omega
  rw [numToIp, if_pos hnet, hwrap]

theorem V4.netOf_text (x : V4) : netOf x.text = x.net := by
  have hc := not_mem_numeral (c := colon) rfl
  have hd := not_mem_numeral (c := dot) rfl
  have hcolon : colon ∉ x.text := by
    simp only [V4.text, List.mem_append, List.mem_cons, x.net_bytes.2, hc, or_false, false_or]
    decide
  -- a match needs a second dot behind the first
  have hlast : beforeSuffix [.char dot, .star, .char dot, .star] (dot :: numeral x.d) = none := by
    have hmatch : globMatch [.char dot, .star, .char dot, .star] (dot :: numeral x.d) = false := by
      rw [globMatch, Bool.and_eq_false_iff]
      exact .inr (Bool.eq_false_iff.mpr fun h => hd x.d ((globMatch_star_char_star _ _).mp h))
    rw [beforeSuffix_cons (beforeSuffix_none _ (hd x.d)), hmatch]
    rfl
  have hsuffix : beforeSuffix [.char dot, .star, .char dot, .star]
      (dot :: (numeral x.c ++ dot :: numeral x.d)) = some [] := by
    have hmatch : globMatch [.char dot, .star, .char dot, .star]
        (dot :: (numeral x.c ++ dot :: numeral x.d)) = true := by
      rw [globMatch, Bool.and_eq_true]
      exact ⟨by decide, (globMatch_star_char_star _ _).mpr (by simp)⟩
    rw [beforeSuffix_cons (beforeSuffix_none_append (hd x.c) hlast), hmatch]
    rfl
  rw [netOf, if_neg hcolon, removeShortest, V4.text, beforeSuffix_append hsuffix]
  rfl

theorem V4.text_eq (x : V4) :
    x.text = x.net ++ dot :: (decimalText x.c ++ dot :: decimalText x.d) := by
  rw [V4.text, decimalText_natCast, decimalText_natCast]

theorem dotted_inj {net : List UInt8} {p q p' q' : ℤ} :
    net ++ dot :: (decimalText p ++ dot :: decimalText q) =
        net ++ dot :: (decimalText p' ++ dot :: decimalText q') ↔ p = p' ∧ q = q' := by
  constructor
  · intro h
    have hno : ∀ z : ℤ, dot ∉ decimalText z := fun z => not_mem_decimalText rfl (by decide) z
    obtain ⟨hp, hq⟩ := append_cons_inj (hno p) (hno p')
      (List.cons.inj (List.append_cancel_left h)).2
    exact ⟨decimalText_injective hp, decimalText_injective hq⟩
  · rintro ⟨rfl, rfl⟩
    rfl

theorem V4.numToIp_ipToNum (x : V4) :
    (ipToNum x.text).map (numToIp · (netOf x.text)) = some x.text ↔ x.c ≠ 0 ∨ x.d = 0 := by
  obtain ⟨-, -, hc, hd⟩ := x.octets
  obtain ⟨hdot, hcolon⟩ := x.net_bytes
  rw [x.netOf_text, x.text_eq, ipToNum_dotted hcolon, Option.map_some, Option.some.injEq,
    numToIp_dotted hdot, dotted_inj, int64_eq (by omega) (by omega)]
  obtain ⟨hdiv, hpos, hneg⟩ := tdiv_tmod_spec (((x.c : ℤ) - 1) * 256 + x.d) (k := 256) (by decide)
  omega

theorem V4.ipToNum_numToIp (x : V4) (n : ℕ) :
    ipToNum (numToIp n (netOf x.text)) = some (n : ℤ) ↔ n < 9223372036854775808 := by
  obtain ⟨hdot, hcolon⟩ := x.net_bytes
  obtain ⟨hlo, hhi, -⟩ := int64_spec n
  obtain ⟨hdiv, -, -⟩ := tdiv_tmod_spec (int64 n) (k := 256) (by decide)
  have hvalue : ((int64 n).tdiv 256 + 1 - 1) * 256 + (int64 n).tmod 256 = int64 n := by omega
  rw [x.netOf_text, numToIp_dotted hdot, ipToNum_dotted hcolon, hvalue, Option.some.injEq]
  constructor
  · intro h
    omega
  · intro h
    exact int64_eq (by omega) (by omega)

/-! ### Groups of sixteen bits -/

theorem V6.net_bytes (x : V6) : dot ∉ x.net := by
  intro h
  rcases mem_of_mem_intercalate h with h | ⟨p, hp, hc⟩
  · exact absurd h (by decide)
  · obtain ⟨g, -, rfl⟩ := List.mem_map.mp hp
    exact not_mem_hexNumeral rfl g hc

theorem ipToNum_groups (net : List UInt8) (p q : ℕ) :
    ipToNum (net ++ colon :: colon :: (hexNumeral p ++ colon :: hexNumeral q)) =
      some ((printfD (hexNumeral p) - 1) * 65536 + printfD (hexNumeral q)) := by
  have hp : ∀ n : ℕ, ∀ c ∈ hexNumeral n, c ∉ separators := by
    intro n c hc hs
    exact not_mem_hexNumeral (separator_not_digit hs).2.1 n hc
  have hcolon : colon ∈ net ++ colon :: colon :: (hexNumeral p ++ colon :: hexNumeral q) := by simp
  have hfields := lastFields_append (net ++ [colon]) (by decide : colon ∈ separators)
    (by decide : colon ∈ separators) (hp p) (hp q)
  rw [List.append_assoc, List.singleton_append] at hfields
  rw [ipToNum, if_pos hcolon, hfields]

theorem numToIp_groups {net : List UInt8} (hnet : dot ∉ net) (n : ℤ) :
    numToIp n net = net ++ colon :: colon :: (printfX ((int64 n).tdiv 65536 + 1) ++
      colon :: printfX ((int64 n).tmod 65536)) := by
  obtain ⟨hlo, hhi, -⟩ := int64_spec n
  obtain ⟨hdiv, hpos, hneg⟩ := tdiv_tmod_spec (int64 n) (k := 65536) (by decide)
  have hwrap : int64 ((int64 n).tdiv 65536 + 1) = (int64 n).tdiv 65536 + 1 := by
    apply int64_eq <;> omega
  rw [numToIp, if_neg hnet, hwrap]

theorem V6.netOf_text (x : V6) : netOf x.text = x.net := by
  have hc := not_mem_hexNumeral (c := colon) rfl
  have hhead : ∀ n, colon ∉ (hexNumeral n).head? := fun n h => hc n (List.mem_of_mem_head? h)
  have hcolon : colon ∈ x.text := by simp [V6.text]
  -- behind the two colons no others stand side by side
  have hlast : beforeSuffix [.char colon, .char colon, .star] (colon :: hexNumeral x.l) = none := by
    rw [beforeSuffix_cons (beforeSuffix_none _ (hc x.l)), globMatch_char_char _ _ _ (hhead x.l)]
    rfl
  have hmiddle : beforeSuffix [.char colon, .char colon, .star]
      (colon :: (hexNumeral x.h ++ colon :: hexNumeral x.l)) = none := by
    have hgroup : colon ∉ (hexNumeral x.h ++ colon :: hexNumeral x.l).head? := by
      rw [List.head?_append_of_ne_nil _ (hexNumeral_ne_nil x.h)]
      exact hhead x.h
    rw [beforeSuffix_cons (beforeSuffix_none_append (hc x.h) hlast),
      globMatch_char_char _ _ _ hgroup]
    rfl
  have hsuffix : beforeSuffix [.char colon, .char colon, .star]
      (colon :: colon :: (hexNumeral x.h ++ colon :: hexNumeral x.l)) = some [] := by
    rw [beforeSuffix_cons hmiddle]
    simp [globMatch]
  rw [netOf, if_pos hcolon, removeShortest, V6.text, beforeSuffix_append hsuffix]
  rfl

theorem groups_inj {net : List UInt8} {p q p' q' : ℕ} :
    net ++ colon :: colon :: (hexNumeral p ++ colon :: hexNumeral q) =
        net ++ colon :: colon :: (hexNumeral p' ++ colon :: hexNumeral q') ↔ p = p' ∧ q = q' := by
  constructor
  · intro h
    have hno : ∀ n : ℕ, colon ∉ hexNumeral n := fun n => not_mem_hexNumeral rfl n
    have htail := (List.cons.inj (List.cons.inj (List.append_cancel_left h)).2).2
    obtain ⟨hp, hq⟩ := append_cons_inj (hno p) (hno p') htail
    exact ⟨hexNumeral_inj hp, hexNumeral_inj hq⟩
  · rintro ⟨rfl, rfl⟩
    rfl

theorem V6.numToIp_ipToNum (x : V6) :
    (ipToNum x.text).map (numToIp · (netOf x.text)) = some x.text ↔ x.h ≠ 0 ∨ x.l = 0 := by
  obtain ⟨-, hh, hl⟩ := x.words
  rw [x.netOf_text, V6.text, ipToNum_groups, Option.map_some, Option.some.injEq,
    numToIp_groups x.net_bytes, printfD_hexNumeral (n := x.h) (by omega),
    printfD_hexNumeral (n := x.l) (by omega), printfX, printfX, groups_inj,
    int64_eq (by omega) (by omega)]
  obtain ⟨hdiv, hpos, hneg⟩ :=
    tdiv_tmod_spec (((x.h : ℤ) - 1) * 65536 + x.l) (k := 65536) (by decide)
  omega

/- Beyond 63 bits a number comes back by accident once: 2^79 - 131072 wraps to
-131072, whose groups are written as 64 bit numbers and read as the largest. -/
theorem V6.ipToNum_numToIp (x : V6) (n : ℕ) :
    ipToNum (numToIp n (netOf x.text)) = some (n : ℤ) ↔
      n < 9223372036854775808 ∨ n = 604462909807314587222016 := by
  obtain ⟨hlo, hhi, k, hk⟩ := int64_spec n
  obtain ⟨hdiv, hpos, hneg⟩ := tdiv_tmod_spec (int64 n) (k := 65536) (by decide)
  have hpart3 := printfD_printfX (z := (int64 n).tdiv 65536 + 1) (by omega) (by omega)
  have hpart4 := printfD_printfX (z := (int64 n).tmod 65536) (by omega) (by omega)
  rw [x.netOf_text, numToIp_groups x.net_bytes]
  unfold printfX at hpart3 hpart4 ⊢
  rw [ipToNum_groups, hpart3, hpart4, Option.some.injEq]
  split <;> split <;> omega

theorem addresses_inverse_iff (x : V4) (y : V6) (n : ℕ) :
    ((ipToNum x.text).map (numToIp · (netOf x.text)) = some x.text ↔ x.c ≠ 0 ∨ x.d = 0) ∧
    ((ipToNum y.text).map (numToIp · (netOf y.text)) = some y.text ↔ y.h ≠ 0 ∨ y.l = 0) ∧
    (ipToNum (numToIp n (netOf x.text)) = some (n : ℤ) ↔ n < 9223372036854775808) ∧
    (ipToNum (numToIp n (netOf y.text)) = some (n : ℤ) ↔
      n < 9223372036854775808 ∨ n = 604462909807314587222016) :=
  ⟨x.numToIp_ipToNum, y.numToIp_ipToNum, x.ipToNum_numToIp n, y.ipToNum_numToIp n⟩

/- 10.0.0.1 -/
def tenNet : V4 := ⟨10, 0, 0, 1, by decide⟩

/- "10.0.1.-255" -/
theorem numToIp_tenNet :
    ipToNum tenNet.text = some (-255) ∧
      numToIp (-255) (netOf tenNet.text) = [49, 48, 46, 48, 46, 49, 46, 45, 50, 53, 53] ∧
      numToIp (-255) (netOf tenNet.text) ≠ tenNet.text := by
  decide

end KeepalivedDevel.Script1173
