import Mathlib.Tactic.Common
import Mathlib.Data.Nat.Notation
import Mathlib.Data.Int.Notation

/-!
# Messages of the kernel's process connector

The netlink messages that `process_monitor.c`, `track_process.c` and
`track_process_ns.c` receive: the netlink header, the connector header and the
process event, with the fields of these that one of the programs reads.
-/

namespace KeepalivedDevel.ProcConnector

/-- `proc_ev->what` with the member of `event_data` that goes with it. Process
and thread identifiers are `pid_t`, user and group identifiers are printed as
`int`. -/
inductive ProcEvent where
  | none (err : UInt32)
  | fork (parentPid parentTgid childPid childTgid : ℤ)
  | exec (processPid processTgid : ℤ)
  | uid (processPid processTgid ruid euid : ℤ)
  | gid (processPid processTgid rgid egid : ℤ)
  | sid (processPid processTgid : ℤ)
  | ptrace (processPid processTgid tracerPid tracerTgid : ℤ)
  | comm (processPid processTgid : ℤ) (name : List UInt8)
  | coredump (processPid processTgid : ℤ)
  | exit (processPid processTgid exitCode exitSignal : ℤ)
  | unhandled (what : UInt32)
  deriving Repr, DecidableEq

/- PROC_EVENT_NONE: the acknowledgement of the subscription. -/
def ProcEvent.isNone : ProcEvent → Bool
  | .none _ => true
  | _ => false

structure NlMsg where
  nlmsgType : UInt16
  idx : UInt32
  val : UInt32
  seq : UInt32
  cpu : UInt32
  event : ProcEvent
  deriving Repr, DecidableEq

-- linux/netlink.h
def nlmsgNoop : UInt16 := 1
def nlmsgError : UInt16 := 2

-- linux/connector.h
def cnIdxProc : UInt32 := 1
def cnValProc : UInt32 := 1

def NlMsg.isControl (m : NlMsg) : Bool := m.nlmsgType = nlmsgError || m.nlmsgType = nlmsgNoop

def NlMsg.isProc (m : NlMsg) : Bool := m.idx = cnIdxProc && m.val = cnValProc

def NlMsg.handled (m : NlMsg) : Bool := !m.isControl && m.isProc

end KeepalivedDevel.ProcConnector
