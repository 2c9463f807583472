import KeepalivedDevel.CLib.Decimal
import KeepalivedDevel.ProcConnector.Loop
import Mathlib.Data.List.Basic

/-!
# The event loop of `code_test/process_monitor.c`

`handle_proc_ev` receives datagrams of process connector messages, prints each
event and keeps, for every CPU, the sequence number of the last message seen
from it, so that it can report messages that were missed. The table it keeps
them in comes from `malloc`; a field that has not been assigned yet is `none`,
and reading such a field, or an entry outside the table, is a fault after which
nothing more is said about the program.
-/

namespace KeepalivedDevel.ProcessMonitor
open ProcConnector CLib

/-- `struct seq` (`process_monitor.c:19-23`). -/
structure Entry where
  initialised : Option Bool
  noBufs : Option Bool
  seq : Option UInt32
  deriving Repr, DecidableEq

inductive Fault where
  | outOfBounds (index : ℕ)
  | indeterminate (index : ℕ)
  deriving Repr, DecidableEq

/-- The arguments of the `Missed` line (`process_monitor.c:234`). The mark for
lost buffers and the time stamp are passed in the opposite order to the format,
so the mark is printed first and the number right behind the time stamp. -/
structure Missed where
  noBufs : Bool
  count : UInt32
  cpu : UInt32
  deriving Repr, DecidableEq

/- `%2u`. -/
def twoPlaces (n : UInt32) : List UInt8 :=
  List.replicate (2 - (numeral n.toNat).length) 32 ++ numeral n.toNat

/-- `tbuf` (`process_monitor.c:159-160`): the time of day, the CPU and the sequence
number, with nothing behind it. -/
def tbuf (time : List UInt8) (cpu seq : UInt32) : List UInt8 :=
  time ++ 32 :: twoPlaces cpu ++ 58 :: 32 :: numeral seq.toNat

/-- The `Missed` line as it is printed, for the contents of `tbuf`. -/
def Missed.line (m : Missed) (tbuf : List UInt8) : List UInt8 :=
  -- (no bufs)
  (if m.noBufs then [40, 110, 111, 32, 98, 117, 102, 115, 41, 32] else []) ++
    -- Missed
    32 :: [77, 105, 115, 115, 101, 100] ++ 32 :: tbuf ++ numeral m.count.toNat ++
    -- messages on CPU
    32 :: [109, 101, 115, 115, 97, 103, 101, 115] ++ 32 :: [111, 110] ++ 32 :: [67, 80, 85] ++
    32 :: numeral m.cpu.toNat ++ [10]

/-- What is printed: the two diagnostics, and for a process event the line of
the event followed by its `Missed` line, if there is one. The time of day is not
part of it. -/
inductive Output where
  | receivedEnobufs
  | receivedId (idx val : UInt32)
  | event (cpu seq : UInt32) (ev : ProcEvent) (missed : Option Missed)
  deriving Repr, DecidableEq

/-- The accounting after the switch (`process_monitor.c:229-238`): the updated
table and the `Missed` line. -/
def account (table : List Entry) (cpu seq : UInt32) : Except Fault (List Entry × Option Missed) :=
  match table[cpu.toNat]? with
  | none => .error (.outOfBounds cpu.toNat)
  | some e =>
    match e.initialised with
    | none => .error (.indeterminate cpu.toNat)
    | some false => .ok (table.set cpu.toNat ⟨some true, some false, some seq⟩, none)
    | some true =>
      match e.seq with
      | none => .error (.indeterminate cpu.toNat)
      | some last =>
        if last + 1 = seq ∨ (seq = 0 ∧ last = 0xffffffff) then
          .ok (table.set cpu.toNat ⟨some true, some false, some seq⟩, none)
        else match e.noBufs with
          | none => .error (.indeterminate cpu.toNat)
          | some noBufs => .ok (table.set cpu.toNat ⟨some true, some false, some seq⟩,
              some ⟨noBufs, seq - last - 1, cpu⟩)

/- The table, the indices of it used so far and the output. -/
structure Monitor where
  table : List Entry
  accessed : List ℕ
  printed : List Output
  deriving Repr, DecidableEq

def message (s : Monitor) (m : NlMsg) : Monitor × Option Fault :=
  if m.isControl then (s, none)
  else if !m.isProc then ({ s with printed := s.printed ++ [.receivedId m.idx m.val] }, none)
  else match account s.table m.cpu m.seq with
    | .error f =>
      (⟨s.table, s.accessed ++ [m.cpu.toNat],
        s.printed ++ [.event m.cpu m.seq m.event none]⟩, some f)
    | .ok (table, missed) =>
      (⟨table, s.accessed ++ [m.cpu.toNat],
        s.printed ++ [.event m.cpu m.seq m.event missed]⟩, none)

/- What is done about ENOBUFS (`process_monitor.c:131-136`). -/
def enobufs (s : Monitor) : Monitor where
  table := s.table.map fun e => { e with noBufs := some true }
  accessed := s.accessed ++ List.range s.table.length
  printed := s.printed ++ [.receivedEnobufs]

def handler : Handler NlMsg Monitor Fault := ⟨some enobufs, message⟩

/- The allocation before the loop: only `initialised` is assigned. -/
def start (numCpus : UInt32) : Monitor where
  table := List.replicate numCpus.toNat ⟨some false, none, none⟩
  accessed := List.range numCpus.toNat
  printed := []

def handleProcEv (numCpus : UInt32) (turns : List (Turn NlMsg)) : Loop Monitor Fault :=
  handler.run (start numCpus, none) turns

/-! ### One message -/

/- An entry that has been used before has all its fields assigned. -/
def Entry.Assigned (e : Entry) : Prop :=
  e.initialised = some false ∨ ∃ noBufs last, e = ⟨some true, some noBufs, some last⟩

theorem account_outside {table : List Entry} {cpu : UInt32} (seq : UInt32)
    (h : table.length ≤ cpu.toNat) : account table cpu seq = .error (.outOfBounds cpu.toNat) := by
  unfold account
  rw [List.getElem?_eq_none h]

theorem account_first {table : List Entry} {cpu : UInt32} {e : Entry} (seq : UInt32)
    (he : table[cpu.toNat]? = some e) (hi : e.initialised = some false) :
    account table cpu seq =
      .ok (table.set cpu.toNat ⟨some true, some false, some seq⟩, none) := by
  unfold account
  rw [he]
  simp only [hi]

/- The second half of the test for a missing message never decides it: the
addition already wraps. -/
theorem account_again {table : List Entry} {cpu last : UInt32} {noBufs : Bool} (seq : UInt32)
    (he : table[cpu.toNat]? = some ⟨some true, some noBufs, some last⟩) :
    account table cpu seq =
      .ok (table.set cpu.toNat ⟨some true, some false, some seq⟩,
        if last + 1 = seq then none else some ⟨noBufs, seq - last - 1, cpu⟩) := by
  have hwrap : last + 1 = seq ∨ (seq = 0 ∧ last = 0xffffffff) ↔ last + 1 = seq := by
    constructor
    · rintro (h | ⟨rfl, rfl⟩)
      · exact h
      · rfl
    · exact .inl
  unfold account
  rw [he]
  simp only [hwrap]
  split <;> rfl

theorem account_assigned {table : List Entry} {cpu : UInt32} {e : Entry} (seq : UInt32)
    (he : table[cpu.toNat]? = some e) (ha : e.Assigned) :
    ∃ missed, account table cpu seq =
      .ok (table.set cpu.toNat ⟨some true, some false, some seq⟩, missed) := by
  rcases ha with hi | ⟨noBufs, last, rfl⟩
  · exact ⟨none, account_first seq he hi⟩
  · exact ⟨_, account_again seq he⟩

theorem message_skipped (s : Monitor) {m : NlMsg} (h : m.handled = false) :
    message s m = (s, none) ∨
      message s m = ({ s with printed := s.printed ++ [.receivedId m.idx m.val] }, none) := by
  unfold NlMsg.handled at h
  unfold message
  cases hc : m.isControl with
  | true => simp
  | false =>
    have hp : m.isProc = false := by simpa [hc] using h
    simp [hp]

theorem message_handled (s : Monitor) {m : NlMsg} (h : m.handled = true) :
    message s m = match account s.table m.cpu m.seq with
      | .error f =>
        (⟨s.table, s.accessed ++ [m.cpu.toNat],
          s.printed ++ [.event m.cpu m.seq m.event none]⟩, some f)
      | .ok (table, missed) =>
        (⟨table, s.accessed ++ [m.cpu.toNat],
          s.printed ++ [.event m.cpu m.seq m.event missed]⟩, none) := by
  simp only [NlMsg.handled, Bool.and_eq_true, Bool.not_eq_true'] at h
  simp [message, h.1, h.2]

end KeepalivedDevel.ProcessMonitor
