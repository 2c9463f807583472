import Mathlib.Tactic.Common
import Mathlib.Data.Nat.Notation
import Mathlib.Data.List.Basic
import Mathlib.Data.List.TakeWhile

/-!
# C strings and the string functions of the C library

A `char *` into a NUL terminated string is modelled by the bytes from the
pointer up to, and without, the terminator. A pointer found inside a string is
modelled by the way it splits the string.
-/

namespace CLib

/-- The contents of a C string: no byte of it is the terminator. -/
structure CString where
  bytes : List UInt8
  nulFree : 0 ∉ bytes
  deriving DecidableEq

def CString.at (s : CString) (i : ℕ) : UInt8 := s.bytes.getD i 0

def strspn (s accept : List UInt8) : ℕ := (s.takeWhile (· ∈ accept)).length

theorem drop_length_takeWhile (p : UInt8 → Bool) (s : List UInt8) :
    s.drop (s.takeWhile p).length = s.dropWhile p := by
  induction s with
  | nil => rfl
  | cons c s ih => by_cases hc : p c = true <;> simp [hc, ih]

theorem drop_strspn (s accept : List UInt8) :
    s.drop (strspn s accept) = s.dropWhile (· ∈ accept) :=
  drop_length_takeWhile _ s

/- A place found in a string: the text before it, the byte at it and the
bytes after it. -/
structure Found where
  text : List UInt8
  ch : UInt8
  rest : List UInt8
  deriving Repr, DecidableEq

def strpbrk (accept : List UInt8) : List UInt8 → Option Found
  | [] => none
  | c :: s =>
    if c ∈ accept then some ⟨[], c, s⟩
    else (strpbrk accept s).map fun f => { f with text := c :: f.text }

theorem strpbrk_none {accept s : List UInt8} (h : strpbrk accept s = none) :
    ∀ c ∈ s, c ∉ accept := by
  induction s with
  | nil => simp
  | cons c s ih =>
    by_cases hc : c ∈ accept
    · simp [strpbrk, hc] at h
    · simp only [strpbrk, hc, ite_false, Option.map_eq_none_iff] at h
      intro d hd
      rcases List.mem_cons.mp hd with rfl | hd
      · exact hc
      · exact ih h d hd

theorem strpbrk_some {accept s : List UInt8} {f : Found} (h : strpbrk accept s = some f) :
    s = f.text ++ f.ch :: f.rest ∧ f.ch ∈ accept ∧ ∀ c ∈ f.text, c ∉ accept := by
  induction s generalizing f with
  | nil => simp [strpbrk] at h
  | cons c s ih =>
    by_cases hc : c ∈ accept
    · simp only [strpbrk, hc, ite_true, Option.some.injEq] at h
      subst h
      exact ⟨rfl, hc, by simp⟩
    · simp only [strpbrk, hc, ite_false, Option.map_eq_some_iff] at h
      obtain ⟨g, hg, rfl⟩ := h
      obtain ⟨hs, hch, htext⟩ := ih hg
      refine ⟨by rw [hs]; rfl, hch, ?_⟩
      intro d hd
      rcases List.mem_cons.mp hd with rfl | hd
      · exact hc
      · exact htext d hd

theorem strpbrk_append {accept s : List UInt8} {f : Found} (h : strpbrk accept s = some f)
    (t : List UInt8) : strpbrk accept (s ++ t) = some { f with rest := f.rest ++ t } := by
  induction s generalizing f with
  | nil => cases h
  | cons c s ih =>
    by_cases hc : c ∈ accept
    · simp only [strpbrk, hc, ite_true, Option.some.injEq] at h
      subst h
      simp [strpbrk, hc]
    · simp only [strpbrk, hc, ite_false, Option.map_eq_some_iff] at h
      obtain ⟨g, hg, rfl⟩ := h
      simp [strpbrk, hc, ih hg]

theorem strpbrk_append_cons {accept s : List UInt8} {c : UInt8} (h : strpbrk accept s = none)
    (hc : c ∈ accept) (t : List UInt8) : strpbrk accept (s ++ c :: t) = some ⟨s, c, t⟩ := by
  induction s with
  | nil => simp [strpbrk, hc]
  | cons d s ih =>
    have hd := strpbrk_none h d (List.mem_cons_self ..)
    simp only [strpbrk, hd, ite_false, Option.map_eq_none_iff] at h
    simp [strpbrk, hd, ih h]

def strchr (c : UInt8) (s : List UInt8) : Option Found := strpbrk [c] s

theorem strchr_some {c : UInt8} {s : List UInt8} {f : Found} (h : strchr c s = some f) :
    s = f.text ++ c :: f.rest ∧ c ∉ f.text := by
  obtain ⟨hs, hch, htext⟩ := strpbrk_some h
  rw [List.mem_singleton] at hch
  rw [hch] at hs
  exact ⟨hs, fun hc => htext c hc (List.mem_singleton_self c)⟩

theorem strchr_eq_none {c : UInt8} {s : List UInt8} (h : c ∉ s) : strchr c s = none := by
  cases hs : strchr c s with
  | none => rfl
  | some f =>
    rw [(strchr_some hs).1] at h
    exact absurd (by simp) h

theorem strchr_none {c : UInt8} {s : List UInt8} (h : strchr c s = none) : c ∉ s :=
  fun hc => strpbrk_none h c hc (List.mem_singleton_self c)

theorem strchr_append {c : UInt8} {text : List UInt8} (rest : List UInt8) (h : c ∉ text) :
    strchr c (text ++ c :: rest) = some ⟨text, c, rest⟩ := by
  induction text with
  | nil => simp [strchr, strpbrk]
  | cons d text ih =>
    rw [List.mem_cons, not_or] at h
    have ht := ih h.2
    unfold strchr at ht ⊢
    simp [strpbrk, ht, Ne.symm h.1]

/-! ### Strings split at a byte -/

theorem mem_splitOn_cons {a c : UInt8} {s p : List UInt8} (h : p ∈ (c :: s).splitOn a) :
    p ∈ s.splitOn a ∨ p = [] ∨ c ≠ a ∧ ∃ q ∈ s.splitOn a, p = c :: q := by
  rw [List.splitOn_cons_eq_if_modifyHead] at h
  by_cases hc : c = a
  · simp only [hc, beq_self_eq_true, ite_true, List.mem_cons] at h
    rcases h with h | h
    · exact .inr (.inl h)
    · exact .inl h
  · rw [if_neg (by simpa using hc)] at h
    cases hs : s.splitOn a with
    | nil => exact absurd hs (List.splitOn_ne_nil a s)
    | cons q rest =>
      rw [hs, List.modifyHead_cons, List.mem_cons] at h
      rcases h with h | h
      · exact .inr (.inr ⟨hc, q, List.mem_cons_self .., h⟩)
      · exact .inl (List.mem_cons_of_mem _ h)

theorem not_mem_of_mem_splitOn {a : UInt8} {s p : List UInt8} (h : p ∈ s.splitOn a) : a ∉ p := by
  induction s generalizing p with
  | nil =>
    rw [List.splitOn_nil, List.mem_singleton] at h
    simp [h]
  | cons c s ih =>
    rcases mem_splitOn_cons h with h | rfl | ⟨hc, q, hq, rfl⟩
    · exact ih h
    · simp
    · simp [ih hq, Ne.symm hc]

theorem length_le_of_mem_splitOn {a : UInt8} {s p : List UInt8} (h : p ∈ s.splitOn a) :
    p.length ≤ s.length := by
  induction s generalizing p with
  | nil =>
    rw [List.splitOn_nil, List.mem_singleton] at h
    simp [h]
  | cons c s ih =>
    rcases mem_splitOn_cons h with h | rfl | ⟨_, q, hq, rfl⟩
    · exact (ih h).trans (Nat.le_succ _)
    · simp
    · exact Nat.succ_le_succ (ih hq)

/-! ### Strings in buffers -/

/- The string at the start of a buffer. -/
def cstr (buf : List UInt8) : List UInt8 := buf.takeWhile (· ≠ 0)

theorem cstr_take (buf : List UInt8) (n : ℕ) : cstr (buf.take n ++ [0]) = (cstr buf).take n := by
  unfold cstr
  induction buf generalizing n with
  | nil => simp
  | cons c buf ih =>
    cases n with
    | zero => simp
    | succ n =>
      by_cases hc : c = 0
      · simp [hc]
      · simpa [hc] using ih n

/- One byte more than the length of a string is enough to compare with it. -/
theorem cstr_take_eq_iff (buf : List UInt8) (s : CString) :
    cstr (buf.take (s.bytes.length + 1) ++ [0]) = s.bytes ↔ cstr buf = s.bytes := by
  rw [cstr_take]
  constructor
  · intro h
    have hlen := congrArg List.length h
    rw [List.length_take] at hlen
    rw [List.take_of_length_le (by omega)] at h
    exact h
  · intro h
    rw [h, List.take_of_length_le (by omega)]

/-! ### Character classes of the C locale -/

def isdigit (c : UInt8) : Bool := 48 ≤ c && c ≤ 57
def isupper (c : UInt8) : Bool := 65 ≤ c && c ≤ 90
def isxdigit (c : UInt8) : Bool :=
  isdigit c || (65 ≤ c && c ≤ 70) || (97 ≤ c && c ≤ 102)

end CLib
