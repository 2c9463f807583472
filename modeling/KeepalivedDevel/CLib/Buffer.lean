import KeepalivedDevel.CLib.CString

/-!
# Buffers of a fixed size

A buffer is the list of its bytes. A copy into it fails where one of the bytes
copied would lie outside.
-/

namespace CLib

def store (buf : List UInt8) (ofs : ℕ) (src : List UInt8) : Option (List UInt8) :=
  if ofs + src.length ≤ buf.length then
    some (buf.take ofs ++ src ++ buf.drop (ofs + src.length))
  else none

theorem store_behind (done buf src : List UInt8) (h : src.length ≤ buf.length) :
    store (done ++ buf) done.length src = some (done ++ src ++ buf.drop src.length) := by
  have hfit : done.length + src.length ≤ (done ++ buf).length := by
    rw [List.length_append]
    omega
  rw [store, if_pos hfit, List.take_left, List.drop_length_add_append]

theorem cstr_append {s : List UInt8} (h : 0 ∉ s) (rest : List UInt8) :
    cstr (s ++ rest) = s ++ cstr rest := by
  unfold cstr
  rw [List.takeWhile_append_of_pos]
  intro c hc
  have hne : c ≠ 0 := by
    rintro rfl
    exact h hc
  simpa using hne

theorem cstr_append_nul {s : List UInt8} (h : 0 ∉ s) (rest : List UInt8) :
    cstr (s ++ 0 :: rest) = s := by
  rw [cstr_append h]
  simp [cstr]

theorem cstr_set_last {s : List UInt8} {n : ℕ} (hs : s.length = n + 1) :
    cstr (s.set n 0) = (cstr s).take n := by
  rw [← cstr_take, List.set_eq_take_append_cons_drop, if_pos (by omega),
    List.drop_of_length_le (by omega)]

/- `strncmp(s, t, n) == 0`. -/
def strncmpZero (s t : List UInt8) (n : ℕ) : Bool := (cstr s).take n = (cstr t).take n

end CLib
