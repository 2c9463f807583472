import KeepalivedDevel.ProcConnector.Loop
import KeepalivedDevel.CLib.Decimal

/-!
# `code_test/track_process.c` and `code_test/track_process_ns.c`

Both programs look for a process of a given name in `/proc` and then follow the
process events to keep `proc_pid` at the identifier of such a process. They
share `check_process`, `read_procs` and, up to what is printed, the event loop;
they differ in how `main` sets the file scope variables that these use.
-/

namespace KeepalivedDevel.TrackProcess
open ProcConnector CLib

/- A process's `cmdline` file: it cannot be opened, it can be opened but `read`
fails, or it is read. -/
inductive Cmdline where
  | noOpen
  | noRead
  | contents (bytes : List UInt8)
  deriving Repr, DecidableEq

/- A failed `read` returns -1 and the terminator is then written in front of the
buffer; a null pointer for `proc_name` is passed on to `strcmp`. -/
inductive Fault where
  | bufUnderrun
  | nullName
  deriving Repr, DecidableEq

/- What is printed. An event's line stands for the event's own text. -/
inductive Line where
  | setMcastListen (err : UInt32)
  | setMcastListenOk
  | event (ev : ProcEvent)
  | unhandled (ev : ProcEvent)
  | found (name : CString) (pid : ℤ)
  | foundEntry (name dName : CString)
  | exitted (name : Option CString) (pid : ℤ)
  deriving DecidableEq

/-- The file scope variables and the output. `compared` lists what `check_process`
handed to `strcmp` as the name, `pids` the successive values of `proc_pid`, after
the initial scan and after each event. -/
structure Tracker where
  procPid : ℤ
  procName : Option CString
  procNameLen : ℕ
  printed : List Line
  compared : List (Option CString)
  pids : List ℤ
  deriving DecidableEq

/- `read` of at most `len + 1` bytes into `buf`, terminated, and `strcmp`. -/
def readMatches (name : CString) (len : ℕ) (bytes : List UInt8) : Bool :=
  cstr (bytes.take (len + 1) ++ [0]) = name.bytes

/-- `check_process` (`track_process.c:28-48`, `track_process_ns.c:117-137`). -/
def checkProcess (g : Tracker) (pid : ℤ) : Cmdline → Tracker × Option Fault
  | .noOpen => (g, none)
  | .noRead => (g, some .bufUnderrun)
  | .contents bytes =>
    match g.procName with
    | none => ({ g with compared := g.compared ++ [none] }, some .nullName)
    | some name =>
      if readMatches name g.procNameLen bytes then
        ({ g with
          compared := g.compared ++ [some name]
          printed := g.printed ++ [.found name pid]
          procPid := pid }, none)
      else ({ g with compared := g.compared ++ [some name] }, none)

/-- The switch of `handle_proc_ev`, without the lines it prints about the event
itself. -/
def event (g : Tracker) (file : Cmdline) : ProcEvent → Tracker × Option Fault
  | .exec processPid _ => checkProcess g processPid file
  | .exit processPid _ _ _ =>
    if processPid = g.procPid then
      ({ g with printed := g.printed ++ [.exitted g.procName g.procPid], procPid := 0 }, none)
    else (g, none)
  | _ => (g, none)

/- A message, with what the `cmdline` file of its process is at that moment. -/
structure Seen where
  msg : NlMsg
  file : Cmdline
  deriving Repr, DecidableEq

def message (announce : ProcEvent → List Line) (g : Tracker) (x : Seen) : Tracker × Option Fault :=
  if x.msg.isControl then (g, none)
  else if !x.msg.isProc then (g, none)
  else match event { g with printed := g.printed ++ announce x.msg.event } x.file x.msg.event with
    | (g, none) => ({ g with pids := g.pids ++ [g.procPid] }, none)
    | (g, some f) => (g, some f)

/- Here ENOBUFS is an error like any other. -/
def handler (announce : ProcEvent → List Line) : Handler Seen Tracker Fault :=
  ⟨none, message announce⟩

/- The lines of `track_process.c`, with `ALL_MSGS` defined. -/
def announceAll : ProcEvent → List Line
  | .none err => [.setMcastListen err]
  | .unhandled what => [.unhandled (.unhandled what)]
  | ev => [.event ev]

/- The lines of `track_process_ns.c`, which does not know about the session,
ptrace and coredump events. -/
def announceNs : ProcEvent → List Line
  | .none _ => [.setMcastListenOk]
  | .fork .. | .exec .. | .uid .. | .gid .. | .comm .. => []
  | .exit pid tgid code sig => [.event (.exit pid tgid code sig)]
  | ev => [.unhandled ev]

/- An entry of `/proc`, with the contents of the `cmdline` file below it. -/
structure DirEnt where
  isDir : Bool
  dName : CString
  file : Cmdline
  deriving DecidableEq

/-- The entries `read_procs` looks into: the names it takes for process
identifiers start with a digit from '1' to '8'. -/
def DirEnt.scanned (ent : DirEnt) : Bool :=
  ent.isDir && !(ent.dName.at 0 ≤ 48 || 57 ≤ ent.dName.at 0)

/-- `read_procs` (`track_process.c:300-336`), with the line it prints. -/
def readProcs (name : CString) : List DirEnt → Except Fault (ℤ × List Line)
  | [] => .ok (0, [])
  | ent :: ents =>
    if !ent.scanned then readProcs name ents
    else match ent.file with
      | .noOpen => readProcs name ents
      | .noRead => .error .bufUnderrun
      | .contents bytes =>
        if readMatches name name.bytes.length bytes then
          .ok (atoi ent.dName.bytes, [.foundEntry name ent.dName])
        else readProcs name ents

/- The part of `main` between the subscription and the loop: `name` is searched
for, `procName` is what the file scope variable is set to. -/
def scan (name : CString) (procName : Option CString) (proc : List DirEnt) :
    Tracker × Option Fault :=
  match readProcs name proc with
  | .error f => (⟨0, none, 0, [], [], []⟩, some f)
  | .ok (pid, lines) => (⟨pid, procName, name.bytes.length, lines, [], [pid]⟩, none)

def bash : CString := ⟨[98, 97, 115, 104], by decide⟩
def sshd : CString := ⟨[115, 115, 104, 100], by decide⟩

/-- `main` of `track_process.c`; `argv1` is `none` if there is no argument. -/
def trackProcess (argv1 : Option CString) (proc : List DirEnt) (turns : List (Turn Seen)) :
    Loop Tracker Fault :=
  (handler announceAll).run (scan (argv1.getD bash) (some (argv1.getD bash)) proc) turns

/-- `main` of `track_process_ns.c`. It has a local variable `proc_name`, so that
the one at file scope keeps its initial value. -/
def trackProcessNs (argv1 : Option CString) (proc : List DirEnt) (turns : List (Turn Seen)) :
    Loop Tracker Fault :=
  (handler announceNs).run (scan (argv1.getD sshd) none proc) turns

/-! ### The comparison -/

/- Reading one byte more than the name's length makes the comparison exact. -/
theorem readMatches_iff (name : CString) (bytes : List UInt8) :
    readMatches name name.bytes.length bytes = true ↔ cstr bytes = name.bytes := by
  unfold readMatches
  rw [decide_eq_true_iff]
  exact cstr_take_eq_iff bytes name

/-! ### One message -/

theorem message_skipped (announce : ProcEvent → List Line) (g : Tracker) {x : Seen}
    (h : x.msg.handled = false) : message announce g x = (g, none) := by
  unfold NlMsg.handled at h
  unfold message
  cases hc : x.msg.isControl with
  | true => rfl
  | false =>
    have hp : x.msg.isProc = false := by simpa [hc] using h
    simp [hp]

theorem message_handled (announce : ProcEvent → List Line) (g : Tracker) {x : Seen}
    (h : x.msg.handled = true) :
    message announce g x =
      match event { g with printed := g.printed ++ announce x.msg.event } x.file x.msg.event with
      | (g, none) => ({ g with pids := g.pids ++ [g.procPid] }, none)
      | (g, some f) => (g, some f) := by
  simp only [NlMsg.handled, Bool.and_eq_true, Bool.not_eq_true'] at h
  simp [message, h.1, h.2]

/- With the name set, `check_process` changes `proc_pid` exactly on a match. -/
theorem checkProcess_contents {name : CString} {g : Tracker} (hn : g.procName = some name)
    (hl : g.procNameLen = name.bytes.length) (pid : ℤ) (bytes : List UInt8) :
    ∃ g', checkProcess g pid (.contents bytes) = (g', none) ∧ g'.procName = some name ∧
      g'.procNameLen = name.bytes.length ∧
      g'.procPid = if cstr bytes = name.bytes then pid else g.procPid := by
  unfold checkProcess
  simp only [hn, hl]
  by_cases hm : cstr bytes = name.bytes
  · exact ⟨_, if_pos ((readMatches_iff name bytes).mpr hm), rfl, rfl, (if_pos hm).symm⟩
  · exact ⟨_, if_neg (mt (readMatches_iff name bytes).mp hm), rfl, rfl, (if_neg hm).symm⟩

/-! ### The initial scan -/

def DirEnt.matches (name : CString) (ent : DirEnt) : Bool :=
  match ent.file with
  | .contents bytes => cstr bytes = name.bytes
  | _ => false

theorem readProcs_eq_find (name : CString) {proc : List DirEnt}
    (h : ∀ ent ∈ proc, ent.scanned = true → ent.file ≠ .noRead) :
    readProcs name proc =
      .ok (match proc.find? fun ent => ent.scanned && ent.matches name with
        | none => (0, [])
        | some ent => (atoi ent.dName.bytes, [.foundEntry name ent.dName])) := by
  induction proc with
  | nil => rfl
  | cons ent proc ih =>
    have ih := ih fun e he => h e (List.mem_cons_of_mem _ he)
    unfold readProcs
    cases hs : ent.scanned with
    | false => simpa [hs] using ih
    | true =>
      cases hf : ent.file with
      | noOpen => simpa [hs, hf, DirEnt.matches] using ih
      | noRead => exact absurd hf (h ent (List.mem_cons_self ..) hs)
      | contents bytes =>
        by_cases hm : cstr bytes = name.bytes
        · simp [hs, hf, DirEnt.matches, hm, readMatches_iff]
        · simpa [hs, hf, DirEnt.matches, hm, readMatches_iff] using ih

end KeepalivedDevel.TrackProcess
