import KeepalivedDevel.CLib.CString
import KeepalivedDevel.CLib.Text

/-!
# Reading a stream by lines

`fgets` reads up to the next newline, or as much as its buffer holds.
-/

namespace CLib

/- At most `n` bytes of a stream, up to and with the first newline, and the rest of it. -/
def takeLine : ℕ → List UInt8 → List UInt8 × List UInt8
  | 0, s => ([], s)
  | _ + 1, [] => ([], [])
  | n + 1, c :: s => if c = 10 then ([c], s) else (c :: (takeLine n s).1, (takeLine n s).2)

/-- `fgets(buf, size, stream)`: what is read and the rest of the stream. A buffer of one
byte takes the terminator only, and the stream stays where it is. -/
def fgets (size : ℕ) (s : List UInt8) : Option (List UInt8 × List UInt8) :=
  if size = 0 then none
  else if size = 1 then some ([], s)
  else if s = [] then none
  else some (takeLine (size - 1) s)

theorem takeLine_append (n : ℕ) (s : List UInt8) : (takeLine n s).1 ++ (takeLine n s).2 = s := by
  induction n generalizing s with
  | zero => rfl
  | succ n ih =>
    cases s with
    | nil => rfl
    | cons c s =>
      rw [takeLine]
      split
      · rfl
      · rw [List.cons_append, ih]

theorem length_takeLine_le (n : ℕ) (s : List UInt8) : (takeLine n s).1.length ≤ n := by
  induction n generalizing s with
  | zero => exact Nat.le_refl 0
  | succ n ih =>
    cases s with
    | nil => exact Nat.zero_le _
    | cons c s =>
      rw [takeLine]
      split
      · exact Nat.succ_le_succ (Nat.zero_le n)
      · exact Nat.succ_le_succ (ih s)

theorem takeLine_ne_nil {n : ℕ} (hn : 0 < n) {s : List UInt8} (hs : s ≠ []) :
    (takeLine n s).1 ≠ [] := by
  cases n with
  | zero => cases hn
  | succ n =>
    cases s with
    | nil => exact absurd rfl hs
    | cons c s =>
      rw [takeLine]
      split <;> simp

theorem length_takeLine_rest {n : ℕ} (hn : 0 < n) {s : List UInt8} (hs : s ≠ []) :
    (takeLine n s).2.length < s.length := by
  have hlength := congrArg List.length (takeLine_append n s)
  have hne := List.length_pos_iff.mpr (takeLine_ne_nil hn hs)
  rw [List.length_append] at hlength
  omega

/-- A line that fits is read as a whole. -/
theorem takeLine_line {n : ℕ} {line : List UInt8} (hline : 10 ∉ line) (hn : line.length < n)
    (rest : List UInt8) : takeLine n (line ++ 10 :: rest) = (line ++ [10], rest) := by
  induction line generalizing n with
  | nil =>
    cases n with
    | zero => cases hn
    | succ n => rfl
  | cons c line ih =>
    rw [List.mem_cons, not_or] at hline
    cases n with
    | zero => cases hn
    | succ n =>
      rw [List.cons_append, takeLine, if_neg (Ne.symm hline.1),
        ih hline.2 (Nat.lt_of_succ_lt_succ hn)]
      rfl

@[simp]
theorem fgets_one (s : List UInt8) : fgets 1 s = some ([], s) := rfl

theorem fgets_nil {size : ℕ} (hsize : 1 < size) : fgets size [] = none := by
  rw [fgets, if_neg (by omega), if_neg (by omega), if_pos rfl]

theorem fgets_eq {size : ℕ} (hsize : 1 < size) {s : List UInt8} (hs : s ≠ []) :
    fgets size s = some (takeLine (size - 1) s) := by
  rw [fgets, if_neg (by omega), if_neg (by omega), if_neg hs]

theorem fgets_line {size : ℕ} {line : List UInt8} (hline : 10 ∉ line)
    (hsize : line.length + 1 < size) (rest : List UInt8) :
    fgets size (line ++ 10 :: rest) = some (line ++ [10], rest) := by
  rw [fgets_eq (by omega) (by simp), takeLine_line hline (by omega)]

/- A stream that is read into a buffer of two bytes and more gets shorter. -/
theorem length_fgets_rest {size : ℕ} (hsize : 1 < size) {s buf rest : List UInt8}
    (h : fgets size s = some (buf, rest)) : rest.length < s.length := by
  by_cases hs : s = []
  · rw [hs, fgets_nil hsize] at h
    cases h
  · rw [fgets_eq hsize hs] at h
    have hlt := length_takeLine_rest (n := size - 1) (by omega) hs
    rw [Option.some.inj h] at hlt
    exact hlt

end CLib
