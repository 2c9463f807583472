import KeepalivedDevel.CLib.Trace
import KeepalivedDevel.Uds.Code
import Mathlib.Logic.Function.Basic

/-!
# The server and its clients as one system

The server of `code_test/uds_server.c` with any number of clients of
`code_test/uds_client.c`, over sockets of type `SOCK_SEQPACKET`. Each event is one
system call of one process, so that a list of events is an interleaving of them.
A connection keeps the packets it has taken, in order, and each of its ends can
be closed before the other.
-/

namespace KeepalivedDevel.Uds
open CLib

variable {ι : Type}

/-- Where a client is: before `connect`, with words still to be written, waiting in
`read` when none is left, or over. -/
inductive Client where
  | start
  | connected (unsent : List CString)
  | printed (text : List UInt8)
  | gone
  deriving DecidableEq

/- A process that is over has no open sockets. -/
def Client.over : Client → Bool
  | .printed _ | .gone => true
  | _ => false

/-- Where the server is: its next system call. -/
inductive Server (ι : Type) where
  | accepting
  | reading (c : ι) (result : ℤ)
  | writing (c : ι) (result : ℤ)
  | closing (c : ι)
  | stopping
  | stopped
  | failed
  deriving DecidableEq

namespace Server

/- The client whose connection is `data_socket`. -/
def current : Server ι → Option ι
  | .reading c _ | .writing c _ | .closing c => some c
  | _ => none

def listening : Server ι → Bool
  | .stopped | .failed => false
  | _ => true

end Server

/-- What the processes are started with, and what the kernel takes. A packet larger than
the socket's buffer never goes through (`EMSGSIZE`), one that finds no `room` in its
connection waits for it. The word END is small enough, and a connection with nothing in it
has room for one packet. -/
structure Setup (ι : Type) where
  args : ι → List CString
  buffer : Buffer
  clientBuffer : ι → Buffer
  takes : CString → Bool
  takes_endWord : takes endWord = true
  room : List CString → Bool
  room_nil : room [] = true

/- What a client sets out to write: its arguments, and END. -/
def Setup.words (σ : Setup ι) (c : ι) : List CString := σ.args c ++ [endWord]

structure System (ι : Type) where
  client : ι → Client
  inbox : ι → List CString
  reply : ι → Option Buffer
  isOpen : ι → Bool
  isReset : ι → Bool
  backlog : List ι
  server : Server ι
  buffer : Buffer
  downFlag : Bool

def Setup.init (σ : Setup ι) : System ι where
  client := fun _ => .start
  inbox := fun _ => []
  reply := fun _ => none
  isOpen := fun _ => false
  isReset := fun _ => false
  backlog := []
  server := .accepting
  buffer := σ.buffer
  downFlag := false

/- `listen(connection_socket, 20)`: one connection more than that can wait. -/
def backlogSize : ℕ := 20

variable [DecidableEq ι]

namespace System

def setClient (s : System ι) (c : ι) (client : Client) : System ι :=
  { s with client := Function.update s.client c client }

/-! ### The system calls of a client -/

def connect (σ : Setup ι) (s : System ι) (c : ι) : Option (System ι) :=
  match s.client c with
  | .start =>
    if s.server.listening then
      if s.backlog.length ≤ backlogSize then
        some { s.setClient c (.connected (σ.words c)) with
          isOpen := Function.update s.isOpen c true
          backlog := s.backlog ++ [c] }
      else none
    else some (s.setClient c .gone)
  | _ => none

/- After a `write` that returns -1, with `ws` behind the word: the loop over the arguments
ends, and END is next; without END the client exits. -/
def failedWrite : List CString → Client
  | [] => .gone
  | _ :: _ => .connected [endWord]

theorem failedWrite_ne_printed (ws : List CString) (text : List UInt8) :
    failedWrite ws ≠ .printed text := by
  cases ws with
  | nil => simp [failedWrite]
  | cons w ws => simp [failedWrite]

/- A packet for a connection that the server has closed is refused with `EPIPE`; no signal
comes with it on a socket of this type. -/
def send (σ : Setup ι) (s : System ι) (c : ι) : Option (System ι) :=
  match s.client c with
  | .connected (w :: ws) =>
    if s.isOpen c && σ.takes w then
      if σ.room (s.inbox c) then
        some { s.setClient c (.connected ws) with
          inbox := Function.update s.inbox c (s.inbox c ++ [w]) }
      else none
    else some (s.setClient c (failedWrite ws))
  | _ => none

/- The buffer of a client when it waits: it holds the word END. -/
def endBuffer (σ : Setup ι) (c : ι) : Buffer := (σ.clientBuffer c).strcpy endWord.bytes (by decide)

def receive (σ : Setup ι) (s : System ι) (c : ι) : Option (System ι) :=
  match s.client c with
  | .connected [] =>
    if s.isReset c then some (s.setClient c .gone)
    else
      match s.reply c with
      | some reply => some (s.setClient c (.printed ((endBuffer σ c).receive reply.bytes).str))
      | none =>
        if s.isOpen c then none
        else some (s.setClient c (.printed ((endBuffer σ c).receive []).str))
  | _ => none

/- A client that ends before its time: its connection stays until the server closes it. -/
def kill (s : System ι) (c : ι) : Option (System ι) :=
  match s.client c with
  | .connected _ => some (s.setClient c .gone)
  | _ => none

/-! ### The system calls of the server -/

def accept (s : System ι) : Option (System ι) :=
  match s.server, s.backlog with
  | .accepting, c :: backlog => some { s with server := .reading c 0, backlog := backlog }
  | _, _ => none

/- The part of the inner loop behind `read`. -/
def handle (s : System ι) (c : ι) (result : ℤ) (b : Buffer) : System ι :=
  match b.command with
  | .down => { s with buffer := b, downFlag := true, server := .writing c result }
  | .finish => { s with buffer := b, server := .writing c result }
  | .add n => { s with buffer := b, server := .reading c (CInt.wrap (result + n)) }

/- At the end of the file `read` returns 0, which the server does not check for. -/
def read (s : System ι) : Option (System ι) :=
  match s.server with
  | .reading c result =>
    match s.inbox c with
    | w :: ws =>
      some ({ s with inbox := Function.update s.inbox c ws }.handle c result
        (s.buffer.receive (w.bytes ++ [0])))
    | [] =>
      if (s.client c).over then some (s.handle c result (s.buffer.receive [])) else none
  | _ => none

/- The connections that wait when the listening socket is closed are reset. -/
def resetBacklog (s : System ι) : System ι :=
  { s with
    isOpen := fun c => s.isOpen c && decide (c ∉ s.backlog)
    isReset := fun c => s.isReset c || decide (c ∈ s.backlog)
    backlog := [] }

/- The `write` to a client that is over fails, and then the server exits. -/
def write (s : System ι) : Option (System ι) :=
  match s.server with
  | .writing c result =>
    (s.buffer.sprintfD result).map fun b =>
      if (s.client c).over then { s.resetBacklog with buffer := b, server := .failed }
      else
        { s with
          buffer := b
          reply := Function.update s.reply c (some b)
          server := .closing c }
  | _ => none

/- A connection closed with packets in it that were not read is reset. -/
def close (s : System ι) : Option (System ι) :=
  match s.server with
  | .closing c =>
    some { s with
      isOpen := Function.update s.isOpen c false
      isReset := Function.update s.isReset c (decide (s.inbox c ≠ []))
      server := if s.downFlag then .stopping else .accepting }
  | _ => none

def stop (s : System ι) : Option (System ι) :=
  match s.server with
  | .stopping => some { s.resetBacklog with server := .stopped }
  | _ => none

end System

inductive Event (ι : Type) where
  | connect (c : ι)
  | send (c : ι)
  | receive (c : ι)
  | kill (c : ι)
  | accept
  | read
  | write
  | close
  | stop
  deriving DecidableEq

def Setup.step (σ : Setup ι) (s : System ι) : Event ι → Option (System ι)
  | .connect c => s.connect σ c
  | .send c => s.send σ c
  | .receive c => s.receive σ c
  | .kill c => s.kill c
  | .accept => s.accept
  | .read => s.read
  | .write => s.write
  | .close => s.close
  | .stop => s.stop

/-- Everything that a step can do. -/
inductive Step (σ : Setup ι) (s : System ι) : Event ι → System ι → Prop where
  | connect {c : ι} (h : s.client c = .start) (listening : s.server.listening = true)
      (waits : s.backlog.length ≤ backlogSize) :
      Step σ s (.connect c) { s.setClient c (.connected (σ.words c)) with
        isOpen := Function.update s.isOpen c true
        backlog := s.backlog ++ [c] }
  | refused {c : ι} (h : s.client c = .start) (listening : s.server.listening = false) :
      Step σ s (.connect c) (s.setClient c .gone)
  | send {c : ι} {w : CString} {ws : List CString} (h : s.client c = .connected (w :: ws))
      (opened : s.isOpen c = true) (taken : σ.takes w = true) (room : σ.room (s.inbox c) = true) :
      Step σ s (.send c) { s.setClient c (.connected ws) with
        inbox := Function.update s.inbox c (s.inbox c ++ [w]) }
  | sendFails {c : ι} {w : CString} {ws : List CString} (h : s.client c = .connected (w :: ws))
      (fails : s.isOpen c = false ∨ σ.takes w = false) :
      Step σ s (.send c) (s.setClient c (System.failedWrite ws))
  | reset {c : ι} (h : s.client c = .connected []) (reset : s.isReset c = true) :
      Step σ s (.receive c) (s.setClient c .gone)
  | receive {c : ι} {reply : Buffer} (h : s.client c = .connected []) (hreply : s.reply c = some reply) :
      Step σ s (.receive c)
        (s.setClient c (.printed ((System.endBuffer σ c).receive reply.bytes).str))
  | receiveEnd {c : ι} (h : s.client c = .connected []) (intact : s.isReset c = false)
      (hreply : s.reply c = none) (closed : s.isOpen c = false) :
      Step σ s (.receive c) (s.setClient c (.printed ((System.endBuffer σ c).receive []).str))
  | kill {c : ι} {unsent : List CString} (h : s.client c = .connected unsent) :
      Step σ s (.kill c) (s.setClient c .gone)
  | accept {c : ι} {backlog : List ι} (h : s.server = .accepting) (first : s.backlog = c :: backlog) :
      Step σ s .accept { s with server := .reading c 0, backlog := backlog }
  | read {c : ι} {result : ℤ} {w : CString} {ws : List CString} (h : s.server = .reading c result)
      (first : s.inbox c = w :: ws) :
      Step σ s .read ({ s with inbox := Function.update s.inbox c ws }.handle c result
        (s.buffer.receive (w.bytes ++ [0])))
  | readEnd {c : ι} {result : ℤ} (h : s.server = .reading c result) (empty : s.inbox c = [])
      (hend : (s.client c).over = true) :
      Step σ s .read (s.handle c result (s.buffer.receive []))
  | write {c : ι} {result : ℤ} {b : Buffer} (h : s.server = .writing c result)
      (hb : s.buffer.sprintfD result = some b) (hend : (s.client c).over = false) :
      Step σ s .write
        { s with buffer := b, reply := Function.update s.reply c (some b), server := .closing c }
  | writeFails {c : ι} {result : ℤ} {b : Buffer} (h : s.server = .writing c result)
      (hend : (s.client c).over = true) :
      Step σ s .write { s.resetBacklog with buffer := b, server := .failed }
  | close {c : ι} (h : s.server = .closing c) :
      Step σ s .close { s with
        isOpen := Function.update s.isOpen c false
        isReset := Function.update s.isReset c (decide (s.inbox c ≠ []))
        server := if s.downFlag then .stopping else .accepting }
  | stop (h : s.server = .stopping) : Step σ s .stop { s.resetBacklog with server := .stopped }

theorem Setup.step_spec {σ : Setup ι} {s t : System ι} {e : Event ι} (h : σ.step s e = some t) :
    Step σ s e t := by
  cases e with
  | connect c =>
    simp only [Setup.step, System.connect] at h
    split at h
    · next hc =>
      split at h
      · next hl =>
        split at h
        · next hw => exact Option.some.inj h ▸ .connect hc hl hw
        · cases h
      · next hl => exact Option.some.inj h ▸ .refused hc (by simpa using hl)
    · cases h
  | send c =>
    simp only [Setup.step, System.send] at h
    split at h
    · next hc =>
      split at h
      · next hgoes =>
        obtain ⟨ho, ht⟩ := Bool.and_eq_true_iff.mp hgoes
        split at h
        · next hr => exact Option.some.inj h ▸ .send hc ho ht hr
        · cases h
      · next hfails =>
        have hfalse := Bool.and_eq_false_iff.mp (Bool.eq_false_iff.mpr hfails)
        exact Option.some.inj h ▸ .sendFails hc hfalse
    · cases h
  | receive c =>
    simp only [Setup.step, System.receive] at h
    split at h
    · next hc =>
      split at h
      · next hr => exact Option.some.inj h ▸ .reset hc hr
      · next hr =>
        split at h
        · next hreply => exact Option.some.inj h ▸ .receive hc hreply
        · next hreply =>
          split at h
          · cases h
          · next ho =>
            exact Option.some.inj h ▸ .receiveEnd hc (by simpa using hr) hreply (by simpa using ho)
    · cases h
  | kill c =>
    simp only [Setup.step, System.kill] at h
    split at h
    · next hc => exact Option.some.inj h ▸ .kill hc
    · cases h
  | accept =>
    simp only [Setup.step, System.accept] at h
    split at h
    · next hs hb => exact Option.some.inj h ▸ .accept hs hb
    · cases h
  | read =>
    simp only [Setup.step, System.read] at h
    split at h
    · next hs =>
      split at h
      · next hi => exact Option.some.inj h ▸ .read hs hi
      · next hi =>
        split at h
        · next ho => exact Option.some.inj h ▸ .readEnd hs hi ho
        · cases h
    · cases h
  | write =>
    simp only [Setup.step, System.write] at h
    split at h
    · next hs =>
      obtain ⟨b, hb, ht⟩ := Option.map_eq_some_iff.mp h
      split at ht
      · next ho => exact ht ▸ .writeFails hs ho
      · next ho => exact ht ▸ .write hs hb (by simpa using ho)
    · cases h
  | close =>
    simp only [Setup.step, System.close] at h
    split at h
    · next hs => exact Option.some.inj h ▸ .close hs
    · cases h
  | stop =>
    simp only [Setup.step, System.stop] at h
    split at h
    · next hs => exact Option.some.inj h ▸ .stop hs
    · cases h

/-- The state after the events, in the order they are given. -/
def Setup.run (σ : Setup ι) (events : List (Event ι)) : Option (System ι) :=
  Trace.run σ.step σ.init events

end KeepalivedDevel.Uds
