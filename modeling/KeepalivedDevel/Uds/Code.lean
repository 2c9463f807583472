import KeepalivedDevel.CLib.Buffer
import KeepalivedDevel.CLib.CInt
import KeepalivedDevel.ShLib.Expansion

/-!
# The words of the summing server and its clients

`code_test/uds_server.c` and `code_test/uds_client.c`. A client writes its
arguments and the word END, each in a packet of its own; the server adds up the
numbers it reads and writes the sum back. Both read into a buffer of
`BUFFER_SIZE` bytes.
-/

namespace KeepalivedDevel.Uds
open CLib ShLib

/- `BUFFER_SIZE` of `uds_connection.h`. -/
def bufferSize : ℕ := 12

/-- `char buffer[BUFFER_SIZE]`. -/
structure Buffer where
  bytes : List UInt8
  size : bytes.length = bufferSize
  deriving DecidableEq

namespace Buffer

def str (b : Buffer) : List UInt8 := cstr b.bytes

/- `read(fd, buffer, BUFFER_SIZE)`: the bytes of a longer packet are lost, and the
bytes that a shorter one does not reach stay. -/
def fill (b : Buffer) (packet : List UInt8) : Buffer where
  bytes := packet.take bufferSize ++ b.bytes.drop packet.length
  size := by
    rw [List.length_append, List.length_take, List.length_drop, b.size]
    omega

/- `buffer[BUFFER_SIZE - 1] = 0`. -/
def terminate (b : Buffer) : Buffer where
  bytes := b.bytes.set (bufferSize - 1) 0
  size := by rw [List.length_set, b.size]

def receive (b : Buffer) (packet : List UInt8) : Buffer := (b.fill packet).terminate

def strcpy (b : Buffer) (text : List UInt8) (fits : text.length < bufferSize) : Buffer where
  bytes := text ++ 0 :: b.bytes.drop (text.length + 1)
  size := by
    rw [List.length_append, List.length_cons, List.length_drop, b.size]
    omega

/- `sprintf(buffer, "%d", result)`, where it stays inside the buffer. -/
def sprintfD (b : Buffer) (result : ℤ) : Option Buffer :=
  if fits : (decimalText result).length < bufferSize then
    some (b.strcpy (decimalText result) fits)
  else none

end Buffer

/-! ### The commands of the server -/

/- "DOWN" and "END". -/
def downWord : CString := ⟨[68, 79, 87, 78], by decide⟩
def endWord : CString := ⟨[69, 78, 68], by decide⟩

inductive Command where
  | down
  | finish
  | add (n : ℤ)
  deriving DecidableEq

/- What the server makes of its buffer. `atoi` cuts the value of its `strtol` down to an
`int`; eleven bytes give no value that a `long` does not hold. -/
def Buffer.command (b : Buffer) : Command :=
  if strncmpZero b.bytes downWord.bytes bufferSize then .down
  else if strncmpZero b.bytes endWord.bytes bufferSize then .finish
  else .add (CInt.wrap (atoi (cstr b.bytes)))

/-! ### What a word means -/

/- The part of a word that the server gets to see. -/
def seen (w : CString) : List UInt8 := w.bytes.take (bufferSize - 1)

def commandOf (text : List UInt8) : Command :=
  if text = downWord.bytes then .down
  else if text = endWord.bytes then .finish
  else .add (CInt.wrap (atoi text))

/-- The sum of the numbers before the first command. -/
def total : List CString → ℤ
  | [] => 0
  | w :: ws =>
    match commandOf (seen w) with
    | .add n => n + total ws
    | _ => 0

theorem Buffer.command_eq (b : Buffer) : b.command = commandOf b.str := by
  have hwhole : (cstr b.bytes).take bufferSize = cstr b.bytes := by
    apply List.take_of_length_le
    rw [← b.size]
    exact (List.takeWhile_prefix _).length_le
  have hdown : (cstr downWord.bytes).take bufferSize = downWord.bytes := by decide
  have hend : (cstr endWord.bytes).take bufferSize = endWord.bytes := by decide
  simp only [Buffer.command, commandOf, Buffer.str, strncmpZero, hwhole, hdown, hend,
    decide_eq_true_eq]
  congr

theorem Buffer.str_receive (b : Buffer) (packet : List UInt8) :
    (b.receive packet).str = (b.fill packet).str.take (bufferSize - 1) :=
  cstr_set_last (b.fill packet).size

/-- A word arrives as what the server gets to see of it, whatever the buffer held. -/
theorem Buffer.str_receive_word (b : Buffer) (w : CString) :
    (b.receive (w.bytes ++ [0])).str = seen w := by
  rw [Buffer.str_receive, seen]
  have hfree : ∀ n, 0 ∉ w.bytes.take n := fun n h => w.nulFree (List.mem_of_mem_take h)
  show List.take 11 (cstr ((w.bytes ++ [0]).take 12 ++ b.bytes.drop (w.bytes ++ [0]).length)) = _
  by_cases hw : w.bytes.length < 12
  · have hword : (w.bytes ++ [0]).take 12 = w.bytes ++ [0] :=
      List.take_of_length_le (by simpa using hw)
    rw [hword, List.append_assoc, List.singleton_append, cstr_append_nul w.nulFree]
    rfl
  · rw [List.take_append_of_le_length (by omega), cstr_append (hfree 12),
      List.take_append_of_le_length (by simp; omega), List.take_take]
    rfl

theorem Buffer.command_receive_word (b : Buffer) (w : CString) :
    (b.receive (w.bytes ++ [0])).command = commandOf (seen w) := by
  rw [Buffer.command_eq, Buffer.str_receive_word]

/-! ### The text of the answer -/

theorem length_decimalText_lt {z : ℤ} (h : CInt.InRange z) : (decimalText z).length < bufferSize := by
  obtain ⟨hlo, hhi⟩ := h
  have hlen : (numeral z.natAbs).length ≤ 10 := length_numeral_le (by decide) (by omega)
  unfold decimalText bufferSize
  split
  · rw [List.length_cons]
    omega
  · omega

theorem nul_not_mem_decimalText (z : ℤ) : 0 ∉ decimalText z :=
  not_mem_decimalText (by decide) (by decide) z

theorem Buffer.str_strcpy (b : Buffer) {text : List UInt8} (hfree : 0 ∉ text)
    (fits : text.length < bufferSize) : (b.strcpy text fits).str = text :=
  cstr_append_nul hfree _

/-- The answer fits the buffer, and the buffer then holds its text. -/
theorem Buffer.exists_sprintfD (b : Buffer) {z : ℤ} (h : CInt.InRange z) :
    ∃ b', b.sprintfD z = some b' ∧ b'.str = decimalText z := by
  refine ⟨_, dif_pos (length_decimalText_lt h), ?_⟩
  exact b.str_strcpy (nul_not_mem_decimalText z) _

/-- A client that reads a whole buffer prints the string in it. -/
theorem Buffer.str_receive_buffer (b reply : Buffer) (h : reply.str.length < bufferSize) :
    (b.receive reply.bytes).str = reply.str := by
  have hfill : (b.fill reply.bytes).str = reply.str := by
    have hdrop : b.bytes.drop reply.bytes.length = [] :=
      List.drop_of_length_le (by rw [b.size, reply.size])
    simp only [Buffer.fill, Buffer.str, hdrop, List.append_nil]
    rw [List.take_of_length_le (by rw [reply.size])]
  rw [Buffer.str_receive, hfill]
  exact List.take_of_length_le (Nat.le_of_lt_succ h)

end KeepalivedDevel.Uds
