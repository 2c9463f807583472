import KeepalivedDevel.CLib.Decimal
import KeepalivedDevel.PyLib.Dict

/-!
# Integers and objects as text

Python's `int`, and `json.dump` and `json.load` for objects whose values are
integers and whose keys need no escapes.

The readers are right on the texts the writers make and on those with something
else behind it; `load` also accepts blanks where JSON does. On other texts they
are not Python's: `int` reads no plus sign and no underscores, and `load` takes
every other JSON value, an array or an object with other values or with escapes,
for an error.
-/

namespace PyLib
open CLib

/-! ### Integers -/

def natural (s : List UInt8) : Option (ℕ × List UInt8) :=
  if s.takeWhile isdigit = [] then none
  else some (digitsValue (s.takeWhile isdigit), s.dropWhile isdigit)

def integer : List UInt8 → Option (ℤ × List UInt8)
  | 45 :: s => (natural s).map fun r => (-(r.1 : ℤ), r.2)
  | s => (natural s).map fun r => ((r.1 : ℤ), r.2)

def skip (s : List UInt8) : List UInt8 := s.dropWhile (· ∈ [32, 9, 10, 13])

/-- `int` of a text: a decimal integer, with blanks around it. -/
def int (s : List UInt8) : Option ℤ :=
  match integer (skip s) with
  | some (n, r) => if skip r = [] then some n else none
  | none => none

/- What follows a number and does not go on with it. -/
def Stops (r : List UInt8) : Prop := ∀ c ∈ r.head?, isdigit c = false

theorem takeWhile_numeral_append (n : ℕ) {r : List UInt8} (hr : Stops r) :
    (numeral n ++ r).takeWhile isdigit = numeral n ∧
      (numeral n ++ r).dropWhile isdigit = r := by
  have hdigits := isdigit_numeral n
  rw [List.takeWhile_append_of_pos hdigits, List.dropWhile_append_of_pos hdigits]
  cases r with
  | nil => simp
  | cons c r =>
    have hc : isdigit c = false := hr c rfl
    simp [hc]

theorem natural_numeral_append (n : ℕ) {r : List UInt8} (hr : Stops r) :
    natural (numeral n ++ r) = some (n, r) := by
  obtain ⟨htake, hdrop⟩ := takeWhile_numeral_append n hr
  rw [natural, htake, hdrop, if_neg (numeral_ne_nil n), digitsValue_numeral]

theorem numeral_head (n : ℕ) : ∃ c rest, numeral n = c :: rest ∧ isdigit c = true := by
  cases hn : numeral n with
  | nil => exact absurd hn (numeral_ne_nil n)
  | cons c rest => exact ⟨c, rest, rfl, isdigit_numeral n c (by simp [hn])⟩

theorem integer_decimalText_append (n : ℤ) {r : List UInt8} (hr : Stops r) :
    integer (decimalText n ++ r) = some (n, r) := by
  unfold decimalText
  split
  · rw [List.cons_append, integer, natural_numeral_append _ hr, Option.map_some]
    have hn : -((n.natAbs : ℕ) : ℤ) = n := by omega
    rw [hn]
  · obtain ⟨c, rest, hc, hdigit⟩ := numeral_head n.natAbs
    have hne : c ≠ 45 := by
      rintro rfl
      exact absurd hdigit (by decide)
    have hplain : integer (numeral n.natAbs ++ r) =
        (natural (numeral n.natAbs ++ r)).map fun p => ((p.1 : ℤ), p.2) := by
      rw [hc, List.cons_append, integer]
      simpa using hne
    have hn : ((n.natAbs : ℕ) : ℤ) = n := by omega
    rw [hplain, natural_numeral_append _ hr, Option.map_some, hn]

theorem skip_of_head {c : UInt8} {s : List UInt8} (h : c ∉ [(32 : UInt8), 9, 10, 13]) :
    skip (c :: s) = c :: s := by
  unfold skip
  rw [List.dropWhile_cons_of_neg (by simpa using h)]

theorem skip_decimalText_append (n : ℤ) (r : List UInt8) : skip (decimalText n ++ r) = decimalText n ++ r := by
  cases hn : decimalText n with
  | nil => exact absurd hn (decimalText_ne_nil n)
  | cons c rest =>
    have hc : c ∉ [(32 : UInt8), 9, 10, 13] := by
      rcases mem_decimalText (z := n) (c := c) (by simp [hn]) with rfl | hdigit
      · decide
      · intro hmem
        simp only [List.mem_cons, List.not_mem_nil, or_false] at hmem
        rcases hmem with rfl | rfl | rfl | rfl <;> exact absurd hdigit (by decide)
    exact skip_of_head hc

theorem int_decimalText (n : ℤ) : int (decimalText n) = some n := by
  have hskip := skip_decimalText_append n []
  have hinteger := integer_decimalText_append n (r := []) (by simp [Stops])
  rw [List.append_nil] at hskip hinteger
  rw [int, hskip, hinteger]
  rfl

/-! ### Keys -/

/-- A string that JSON writes between quotes as it is. -/
def Plain (k : List UInt8) : Prop := ∀ c ∈ k, c ≠ 34 ∧ c ≠ 92 ∧ 32 ≤ c

instance (k : List UInt8) : Decidable (Plain k) := List.decidableBAll _ k

def Key : Type := {k : List UInt8 // Plain k}

instance : DecidableEq Key := inferInstanceAs (DecidableEq {k : List UInt8 // Plain k})

theorem plain_decimalText (n : ℤ) : Plain (decimalText n) := by
  intro c hc
  rcases mem_decimalText hc with rfl | hdigit
  · decide
  · simp only [isdigit, Bool.and_eq_true, decide_eq_true_eq, UInt8.le_iff_toNat_le,
      UInt8.reduceToNat] at hdigit
    simp only [ne_eq, ← UInt8.toNat_inj, UInt8.le_iff_toNat_le, UInt8.reduceToNat]
    omega

def strKey (n : ℤ) : Key := ⟨decimalText n, plain_decimalText n⟩

theorem strKey_injective : Function.Injective strKey := by
  intro m n h
  exact decimalText_injective (congrArg Subtype.val h)

/-! ### Objects -/

def member (i : Key × ℤ) : List UInt8 := 34 :: i.1.val ++ 34 :: 58 :: 32 :: decimalText i.2

def members : List (Key × ℤ) → List UInt8
  | [] => []
  | [i] => member i
  | i :: items => member i ++ 44 :: 32 :: members items

def dump (d : Dict Key ℤ) : List UInt8 := 123 :: members d.items ++ [125]

def quoted : List UInt8 → Option (Key × List UInt8)
  | 34 :: s =>
    match s.dropWhile (· ≠ 34) with
    | [] => none
    | _ :: r => if h : Plain (s.takeWhile (· ≠ 34)) then some (⟨_, h⟩, r) else none
  | _ => none

/- A key, a colon and a value, and the blanks behind them. -/
def readMember (s : List UInt8) : Option ((Key × ℤ) × List UInt8) :=
  match quoted (skip s) with
  | none => none
  | some (k, s) =>
    match skip s with
    | 58 :: s => (integer (skip s)).map fun r => ((k, r.1), skip r.2)
    | _ => none

/- The members of an object and what follows its closing brace; every member takes
some bytes, so their number bounds the recursion. -/
def readMembers : ℕ → List UInt8 → Option (List (Key × ℤ) × List UInt8)
  | 0, _ => none
  | fuel + 1, s =>
    match readMember s with
    | some (i, 44 :: s) => (readMembers fuel s).map fun r => (i :: r.1, r.2)
    | some (i, 125 :: s) => some ([i], s)
    | _ => none

def readObject (s : List UInt8) : Option (List (Key × ℤ) × List UInt8) :=
  match skip s with
  | 123 :: s =>
    match skip s with
    | 125 :: r => some ([], r)
    | _ => readMembers s.length s
  | _ => none

def load (s : List UInt8) : Option (Dict Key ℤ) :=
  match readObject s with
  | some (items, r) => if skip r = [] then some (Dict.ofItems items) else none
  | none => none

theorem quoted_append (k : Key) (r : List UInt8) : quoted (34 :: k.val ++ 34 :: r) = some (k, r) := by
  have hk : ∀ c ∈ k.val, (decide (c ≠ 34)) = true := fun c hc => by simp [(k.property c hc).1]
  have htake : (k.val ++ 34 :: r).takeWhile (· ≠ 34) = k.val := by
    rw [List.takeWhile_append_of_pos hk]
    simp
  have hdrop : (k.val ++ 34 :: r).dropWhile (· ≠ 34) = 34 :: r := by
    rw [List.dropWhile_append_of_pos hk]
    simp
  rw [List.cons_append, quoted, hdrop]
  simp only [htake]
  rw [dif_pos k.property]
  rfl

theorem readMember_of_skip {s t : List UInt8} {i : Key × ℤ} (h : skip s = member i ++ t)
    (ht : Stops t) : readMember s = some (i, skip t) := by
  have htext : member i ++ t = 34 :: i.1.val ++ 34 :: (58 :: 32 :: (decimalText i.2 ++ t)) := by
    simp [member]
  have hcolon : skip (58 :: 32 :: (decimalText i.2 ++ t)) = 58 :: 32 :: (decimalText i.2 ++ t) :=
    skip_of_head (by decide)
  have hblank : skip (32 :: (decimalText i.2 ++ t)) = decimalText i.2 ++ t := by
    rw [skip, List.dropWhile_cons_of_pos (by decide)]
    exact skip_decimalText_append _ _
  rw [readMember, h, htext, quoted_append]
  simp only [hcolon, hblank, integer_decimalText_append _ ht, Option.map_some]

theorem members_head {items : List (Key × ℤ)} (h : items ≠ []) :
    ∃ rest, members items = 34 :: rest := by
  cases items with
  | nil => exact absurd rfl h
  | cons i items =>
    cases items with
    | nil => exact ⟨_, rfl⟩
    | cons j items => exact ⟨_, rfl⟩

theorem length_le_members (items : List (Key × ℤ)) : items.length ≤ (members items).length := by
  induction items with
  | nil => exact Nat.zero_le _
  | cons i items ih =>
    cases items with
    | nil => simp [members, member]
    | cons j items =>
      simp only [members, List.length_append, List.length_cons] at ih ⊢
      omega

theorem readMembers_of_skip {items : List (Key × ℤ)} (hne : items ≠ []) {fuel : ℕ}
    (hfuel : items.length ≤ fuel) {s r : List UInt8} (h : skip s = members items ++ 125 :: r) :
    readMembers fuel s = some (items, r) := by
  induction items generalizing fuel s with
  | nil => exact absurd rfl hne
  | cons i items ih =>
    cases fuel with
    | zero => exact absurd hfuel (by simp)
    | succ fuel =>
      rw [readMembers]
      cases items with
      | nil =>
        rw [readMember_of_skip h fun c hc => by cases hc; decide, skip_of_head (by decide)]
        rfl
      | cons j items =>
        obtain ⟨rest, hrest⟩ := members_head (List.cons_ne_nil j items)
        have htext : skip s = member i ++ 44 :: (32 :: (members (j :: items) ++ 125 :: r)) := by
          simp [h, members]
        have hnext : skip (32 :: (members (j :: items) ++ 125 :: r)) =
            members (j :: items) ++ 125 :: r := by
          rw [skip, List.dropWhile_cons_of_pos (by decide), hrest]
          exact skip_of_head (by decide)
        rw [readMember_of_skip htext fun c hc => by cases hc; decide, skip_of_head (by decide)]
        simp only [ih (List.cons_ne_nil j items) (Nat.le_of_succ_le_succ hfuel) hnext,
          Option.map_some]

theorem readObject_dump_append (d : Dict Key ℤ) (r : List UInt8) :
    readObject (dump d ++ r) = some (d.items, r) := by
  have htext : dump d ++ r = 123 :: (members d.items ++ 125 :: r) := by simp [dump]
  rw [readObject, htext, skip_of_head (by decide)]
  by_cases hitems : d.items = []
  · rw [hitems]
    simp only [members, List.nil_append]
    rw [skip_of_head (by decide)]
    rfl
  · obtain ⟨rest, hrest⟩ := members_head hitems
    have hskip : skip (members d.items ++ 125 :: r) = members d.items ++ 125 :: r := by
      rw [hrest]
      exact skip_of_head (by decide)
    have hlength : d.items.length ≤ (members d.items ++ 125 :: r).length := by
      rw [List.length_append]
      exact Nat.le_trans (length_le_members _) (Nat.le_add_right _ _)
    have hread := readMembers_of_skip hitems hlength hskip
    simp only [hskip]
    rw [hread, hrest]
    rfl

/-- What is written is read back, but not with something else behind it. -/
theorem load_dump_append (d : Dict Key ℤ) (r : List UInt8) :
    load (dump d ++ r) = if skip r = [] then some d else none := by
  rw [load, readObject_dump_append]
  simp only [Dict.ofItems_items]

theorem load_dump (d : Dict Key ℤ) : load (dump d) = some d := by
  have h := load_dump_append d []
  rwa [List.append_nil] at h

end PyLib
