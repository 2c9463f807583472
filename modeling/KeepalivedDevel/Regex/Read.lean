import KeepalivedDevel.CLib.Buffer
import KeepalivedDevel.CLib.Fgets
import KeepalivedDevel.CLib.While

/-!
# Reading the text in `code_test/regex.c`

`main` reads all of its standard input into one buffer, a line at a time, each behind
the last. When the buffer is full there is one byte left for `fgets`, which then
succeeds without reading anything.
-/

namespace KeepalivedDevel.Regex
open CLib CLib.While

-- sizeof buf
def bufLen : ℕ := 2048

structure State where
  buf : List UInt8
  bufSize : ℕ
  stdin : List UInt8

/- `fgets` writes what it reads and a NUL at `buf + buf_size`. -/
def State.write (s : State) (chunk rest : List UInt8) : State :=
  let buf := s.buf.take s.bufSize ++ chunk ++ 0 :: s.buf.drop (s.bufSize + chunk.length + 1)
  ⟨buf, s.bufSize + (cstr (buf.drop s.bufSize)).length, rest⟩

/- The loop (`regex.c:220-221`), which is left with the contents of the buffer. -/
def readBody (s : State) : Pass State (List UInt8) :=
  match fgets (bufLen - s.bufSize) s.stdin with
  | none => .leave s.buf
  | some (chunk, rest) => .again (s.write chunk rest)

def start (stdin : List UInt8) : State := ⟨List.replicate bufLen 0, 0, stdin⟩

/-- The buffer holds the text read so far, and has its length. -/
structure State.Holds (s : State) (text : List UInt8) : Prop where
  size : s.bufSize = text.length
  nulFree : 0 ∉ text
  bytes : ∃ junk, s.buf = text ++ 0 :: junk
  length : s.buf.length = bufLen

theorem holds_start (stdin : List UInt8) : (start stdin).Holds [] where
  size := List.length_nil.symm
  nulFree := List.not_mem_nil
  bytes := ⟨List.replicate (bufLen - 1) 0, List.replicate_succ⟩
  length := List.length_replicate

theorem State.Holds.length_lt {s : State} {text : List UInt8} (h : s.Holds text) :
    text.length < bufLen := by
  obtain ⟨junk, hbuf⟩ := h.bytes
  rw [← h.length, hbuf, List.length_append, List.length_cons]
  omega

theorem State.Holds.cstr_buf {s : State} {text : List UInt8} (h : s.Holds text) :
    cstr s.buf = text := by
  obtain ⟨junk, hbuf⟩ := h.bytes
  rw [hbuf, cstr_append_nul h.nulFree]

/- What is written with its NUL must fit, or the buffer would not keep its length. -/
theorem State.Holds.write {s : State} {text : List UInt8} (h : s.Holds text) {chunk : List UInt8}
    (hchunk : 0 ∉ chunk) (hfits : (text ++ chunk).length < bufLen) (rest : List UInt8) :
    (s.write chunk rest).Holds (text ++ chunk) := by
  obtain ⟨junk, hbuf⟩ := h.bytes
  have hwritten : s.buf.take s.bufSize ++ chunk ++ 0 :: s.buf.drop (s.bufSize + chunk.length + 1) =
      text ++ (chunk ++ 0 :: s.buf.drop (s.bufSize + chunk.length + 1)) := by
    rw [h.size, hbuf, List.take_left, List.append_assoc]
  refine ⟨?_, ?_, ⟨s.buf.drop (s.bufSize + chunk.length + 1), ?_⟩, ?_⟩
  · rw [State.write, hwritten, h.size, List.drop_left, cstr_append_nul hchunk, List.length_append]
  · simp [h.nulFree, hchunk]
  · rw [State.write, hwritten, List.append_assoc]
  · have hlength := h.length
    rw [List.length_append] at hfits
    simp only [State.write, List.length_append, List.length_cons, List.length_take, List.length_drop,
      h.size]
    omega

/-! ### One pass -/

/-- The text read goes over from the input to the buffer, behind what is there already. -/
theorem readBody_again {s : State} {text : List UInt8} (h : s.Holds text)
    (hroom : text.length + 1 < bufLen) (hin : s.stdin ≠ []) (hnul : 0 ∉ s.stdin) :
    ∃ t chunk, readBody s = .again t ∧ t.Holds (text ++ chunk) ∧ chunk ++ t.stdin = s.stdin ∧
      chunk ≠ [] := by
  have hsize : 1 < bufLen - s.bufSize := by
    rw [h.size]
    omega
  have hread := fgets_eq hsize hin
  have happend := takeLine_append (bufLen - s.bufSize - 1) s.stdin
  have hne := takeLine_ne_nil (by omega : 0 < bufLen - s.bufSize - 1) hin
  have hle := length_takeLine_le (bufLen - s.bufSize - 1) s.stdin
  generalize takeLine (bufLen - s.bufSize - 1) s.stdin = line at hread happend hne hle
  have hchunk : 0 ∉ line.1 := fun hmem => hnul (happend ▸ List.mem_append_left _ hmem)
  have hfits : (text ++ line.1).length < bufLen := by
    rw [h.size] at hle
    rw [List.length_append]
    omega
  refine ⟨s.write line.1 line.2, line.1, ?_, h.write hchunk hfits line.2, happend, hne⟩
  simp only [readBody, hread]

/-- With a full buffer nothing more is read, and the loop goes round again. -/
theorem readBody_full {s : State} {text : List UInt8} (h : s.Holds text)
    (hfull : text.length + 1 = bufLen) :
    ∃ t, readBody s = .again t ∧ t.Holds text ∧ t.stdin = s.stdin := by
  have hone : bufLen - s.bufSize = 1 := by
    rw [h.size]
    omega
  refine ⟨s.write [] s.stdin, ?_, ?_, rfl⟩
  · simp only [readBody, hone, fgets_one]
  · have hwrite := h.write List.not_mem_nil (by rw [List.append_nil]; exact h.length_lt) s.stdin
    rwa [List.append_nil] at hwrite

theorem readBody_leave {s : State} {text : List UInt8} (h : s.Holds text)
    (hroom : text.length + 1 < bufLen) (hin : s.stdin = []) : readBody s = .leave s.buf := by
  have hsize : 1 < bufLen - s.bufSize := by
    rw [h.size]
    omega
  simp only [readBody, hin, fgets_nil hsize]

/-! ### The whole loop -/

/- What is in the buffer and what is still to be read make up the input at every pass. -/
theorem holds_of_reaches {stdin : List UInt8} (hnul : 0 ∉ stdin) {s : State}
    (hs : Reaches readBody (start stdin) s) : ∃ text, s.Holds text ∧ text ++ s.stdin = stdin := by
  induction hs with
  | enter => exact ⟨[], holds_start stdin, rfl⟩
  | @pass t u _ hb ih =>
    obtain ⟨text, ht, hall⟩ := ih
    have hrest : 0 ∉ t.stdin := fun hmem => hnul (hall ▸ List.mem_append_right _ hmem)
    rcases Nat.eq_or_lt_of_le ht.length_lt with hfull | hroom
    · obtain ⟨v, hv, hholds, hin⟩ := readBody_full ht hfull
      rw [hb] at hv
      cases hv
      exact ⟨text, hholds, by rw [hin, hall]⟩
    · by_cases hin : t.stdin = []
      · rw [readBody_leave ht hroom hin] at hb
        cases hb
      · obtain ⟨v, chunk, hv, hholds, happend, _⟩ := readBody_again ht hroom hin hrest
        rw [hb] at hv
        cases hv
        exact ⟨text ++ chunk, hholds, by rw [List.append_assoc, happend, hall]⟩

/- The induction is on what is left to read: a pass that goes on has read some of it. -/
theorem reads {s : State} {text : List UInt8} (h : s.Holds text) (hnul : 0 ∉ s.stdin) :
    (text.length + s.stdin.length + 1 < bufLen →
      ∃ buf, Ends readBody s buf ∧ cstr buf = text ++ s.stdin) ∧
    (bufLen ≤ text.length + s.stdin.length + 1 → ∀ buf, ¬ Ends readBody s buf) := by
  induction hn : s.stdin.length using Nat.strongRecOn generalizing s text with
  | _ n ih =>
    rcases Nat.eq_or_lt_of_le h.length_lt with hfull | hroom
    · refine ⟨by omega, fun _ buf => not_ends (I := fun s => s.Holds text) ?_ h buf⟩
      intro s hs
      obtain ⟨t, hb, ht, _⟩ := readBody_full hs hfull
      exact ⟨t, hb, ht⟩
    · by_cases hin : s.stdin = []
      · have hzero : n = 0 := by rw [← hn, hin, List.length_nil]
        refine ⟨fun _ => ⟨s.buf, (ends_leave (readBody_leave h hroom hin)).mpr rfl, ?_⟩, by omega⟩
        rw [h.cstr_buf, hin, List.append_nil]
      · obtain ⟨t, chunk, hb, ht, happend, hne⟩ := readBody_again h hroom hin hnul
        have hpos := List.length_pos_iff.mpr hne
        have hlength := congrArg List.length happend
        rw [List.length_append] at hlength
        have hsum : (text ++ chunk).length + t.stdin.length = text.length + n := by
          rw [List.length_append]
          omega
        have hrest := ih t.stdin.length (by omega) ht
          (fun hmem => hnul (happend ▸ List.mem_append_right _ hmem)) rfl
        rw [hsum, List.append_assoc, happend] at hrest
        simpa only [ends_again hb] using hrest

/-- A text of up to 2046 bytes is read as it is. A longer one is never read to its end:
the loop stays inside of the buffer, but it does not end. -/
theorem reads_only_short_texts (stdin : List UInt8) (hnul : 0 ∉ stdin) :
    (stdin.length ≤ 2046 → ∃ buf, Ends readBody (start stdin) buf ∧ cstr buf = stdin) ∧
    (2046 < stdin.length → ∀ buf, ¬ Ends readBody (start stdin) buf) ∧
    ∀ s, Reaches readBody (start stdin) s →
      s.buf.length = bufLen ∧ s.bufSize < bufLen ∧ cstr s.buf ++ s.stdin = stdin := by
  have h := reads (holds_start stdin) hnul
  rw [List.length_nil, Nat.zero_add, List.nil_append] at h
  refine ⟨fun hle => h.1 (Nat.lt_of_le_of_lt (Nat.succ_le_succ hle) (by decide)),
    fun hlt => h.2 (Nat.succ_le_succ hlt), ?_⟩
  intro s hs
  obtain ⟨text, hholds, hall⟩ := holds_of_reaches hnul hs
  refine ⟨hholds.length, ?_, by rw [hholds.cstr_buf, hall]⟩
  rw [hholds.size]
  exact hholds.length_lt

theorem reads_only_short_texts_line :
    ∃ buf, Ends readBody (start [97, 98, 10]) buf ∧ cstr buf = [97, 98, 10] :=
  (reads_only_short_texts [97, 98, 10] (by decide)).1 (by decide)

end KeepalivedDevel.Regex
