import KeepalivedDevel.TrackProcess.Code
import Mathlib.Logic.Function.Basic

/-!
# The processes that `track_process.c` follows

The live processes with the command lines of their last `exec`, what a fork, an
exec and an exit do to them, and the program beside them: it scans `/proc` at
the start and handles every event before the next one happens. The variables
of the program enter only through `proc_pid`, and `World.tracked_step` gives its
successive values by a rule of its own.
-/

namespace KeepalivedDevel.TrackProcess
open ProcConnector CLib

structure Procs where
  cmdline : ℤ → Option (List UInt8)
  pos : ∀ {pid}, (cmdline pid).isSome → 0 < pid

/- Events of the process table. A process has a single thread. -/
inductive ProcStep where
  | fork (parent child : ℤ)
  | exec (pid : ℤ) (cmdline : List UInt8)
  | exit (pid exitCode exitSignal : ℤ)
  deriving DecidableEq

def ProcStep.event : ProcStep → ProcEvent
  | .fork parent child => .fork parent parent child child
  | .exec pid _ => .exec pid pid
  | .exit pid code sig => .exit pid pid code sig

def ProcStep.pid : ProcStep → ℤ
  | .fork _ child => child
  | .exec pid _ => pid
  | .exit pid _ _ => pid

def Procs.set (p : Procs) (pid : ℤ) (c : List UInt8) (h : 0 < pid) : Procs where
  cmdline := Function.update p.cmdline pid (some c)
  pos := by
    intro q hq
    by_cases hqp : q = pid
    · rw [hqp]
      exact h
    · rw [Function.update_of_ne hqp] at hq
      exact p.pos hq

def Procs.remove (p : Procs) (pid : ℤ) : Procs where
  cmdline := Function.update p.cmdline pid none
  pos := by
    intro q hq
    by_cases hqp : q = pid
    · rw [hqp, Function.update_self] at hq
      exact absurd hq (by simp)
    · rw [Function.update_of_ne hqp] at hq
      exact p.pos hq

/- The processes after a step; `none` if the step cannot happen. A forked child
inherits the command line. -/
def Procs.after (p : Procs) : ProcStep → Option Procs
  | .fork parent child =>
    match p.cmdline parent, p.cmdline child with
    | some c, none => if h : 0 < child then some (p.set child c h) else none
    | _, _ => none
  | .exec pid c => if h : (p.cmdline pid).isSome then some (p.set pid c (p.pos h)) else none
  | .exit pid _ _ => if (p.cmdline pid).isSome then some (p.remove pid) else none

def Procs.file (p : Procs) (pid : ℤ) : Cmdline :=
  match p.cmdline pid with
  | some c => .contents c
  | none => .noOpen

/- A live process with the given `argv[0]`. -/
def Procs.Runs (p : Procs) (name : CString) (pid : ℤ) : Prop :=
  ∃ c, p.cmdline pid = some c ∧ cstr c = name.bytes

theorem Procs.Runs.live {p : Procs} {name : CString} {pid : ℤ} (h : p.Runs name pid) :
    (p.cmdline pid).isSome := by
  obtain ⟨c, hc, -⟩ := h
  rw [hc]
  rfl

/-- `/proc` lists exactly the live processes, under their identifiers in decimal
and in any order, besides entries whose names do not start with a positive digit. -/
structure Procs.Lists (p : Procs) (proc : List DirEnt) : Prop where
  sound : ∀ ent ∈ proc, ent.isDir = true → 48 < (ent.dName.at 0).toNat →
    (ent.dName.at 0).toNat ≤ 57 → ∃ pid, 0 < pid ∧ ent.dName.bytes = decimal pid.toNat ∧
      (p.cmdline pid).isSome ∧ ent.file = p.file pid
  complete : ∀ pid, (p.cmdline pid).isSome → ∃ ent ∈ proc, ent.isDir = true ∧
    ent.dName.bytes = decimal pid.toNat ∧ ent.file = p.file pid

/-! ### The program beside the processes -/

structure World where
  procs : Procs
  tracker : Loop Tracker Fault

/- The message of an event. The tracker reads neither its number nor its CPU. -/
def eventMsg (ev : ProcEvent) : NlMsg := ⟨3, cnIdxProc, cnValProc, 0, 0, ev⟩

def World.step (w : World) (st : ProcStep) : World :=
  match w.procs.after st with
  | none => w
  | some p => ⟨p, (handler announceAll).turn w.tracker
      ⟨.datagram [⟨eventMsg st.event, p.file st.pid⟩], false⟩⟩

def World.start (argv1 : Option CString) (proc : List DirEnt) (p : Procs) : World :=
  ⟨p, trackProcess argv1 proc []⟩

/- What is left of a state when only `proc_pid` is kept of the program. -/
structure Tracked where
  procs : Procs
  pid : ℤ

def World.tracked (w : World) : Tracked := ⟨w.procs, w.tracker.vars.procPid⟩

def Tracked.step (name : CString) (a : Tracked) (st : ProcStep) : Tracked :=
  match a.procs.after st with
  | none => a
  | some p =>
    match st with
    | .fork _ _ => ⟨p, a.pid⟩
    | .exec pid c => ⟨p, if cstr c = name.bytes then pid else a.pid⟩
    | .exit pid _ _ => ⟨p, if pid = a.pid then 0 else a.pid⟩

structure World.Looping (name : CString) (w : World) : Prop where
  needExit : w.tracker.needExit = false
  status : w.tracker.status = .running
  procName : w.tracker.vars.procName = some name
  procNameLen : w.tracker.vars.procNameLen = name.bytes.length

/-! ### One step -/

theorem after_fork {p q : Procs} {parent child : ℤ} (h : p.after (.fork parent child) = some q) :
    ∃ c, p.cmdline parent = some c ∧ p.cmdline child = none ∧
      q.cmdline = Function.update p.cmdline child (some c) := by
  simp only [Procs.after] at h
  split at h
  · next c hp hc =>
    split at h
    · cases h
      exact ⟨c, hp, hc, rfl⟩
    · cases h
  · cases h

theorem after_exec {p q : Procs} {pid : ℤ} {c : List UInt8} (h : p.after (.exec pid c) = some q) :
    (p.cmdline pid).isSome ∧ q.cmdline = Function.update p.cmdline pid (some c) := by
  simp only [Procs.after] at h
  split at h
  · next hl =>
    cases h
    exact ⟨hl, rfl⟩
  · cases h

theorem after_exit {p q : Procs} {pid code sig : ℤ} (h : p.after (.exit pid code sig) = some q) :
    (p.cmdline pid).isSome ∧ q.cmdline = Function.update p.cmdline pid none := by
  simp only [Procs.after] at h
  split at h
  · next hl =>
    cases h
    exact ⟨hl, rfl⟩
  · cases h

/- The step of the table as the program sees it: only exec and exit events can
change `proc_pid`. -/
theorem event_step {name : CString} {g : Tracker} (hn : g.procName = some name)
    (hl : g.procNameLen = name.bytes.length) {p q : Procs} {st : ProcStep}
    (hst : p.after st = some q) :
    ∃ g', event g (q.file st.pid) st.event = (g', none) ∧
      g'.procName = some name ∧ g'.procNameLen = name.bytes.length ∧
      Tracked.step name ⟨p, g.procPid⟩ st = ⟨q, g'.procPid⟩ := by
  unfold Tracked.step
  simp only [hst]
  cases st with
  | fork parent child => exact ⟨g, rfl, hn, hl, rfl⟩
  | exit pid code sig =>
    by_cases hp : pid = g.procPid
    · exact ⟨_, if_pos hp, hn, hl, by simp [hp]⟩
    · exact ⟨g, if_neg hp, hn, hl, by simp [hp]⟩
  | exec pid c =>
    have hfile : q.file pid = .contents c := by
      unfold Procs.file
      rw [(after_exec hst).2, Function.update_self]
    obtain ⟨g', he, hn', hl', hp⟩ := checkProcess_contents hn hl pid c
    refine ⟨g', ?_, hn', hl', by rw [hp]⟩
    show checkProcess g pid (q.file pid) = _
    rw [hfile, he]

theorem turn_message {a : ProcEvent → List Line} {s : Loop Tracker Fault} {x : Seen} {g : Tracker}
    (hx : s.needExit = false) (hs : s.status = .running)
    (hm : message a s.vars x = (g, none)) :
    (handler a).turn s ⟨.datagram [x], false⟩ = ⟨false, g, .running⟩ := by
  obtain ⟨needExit, vars, status⟩ := s
  cases hx
  cases hs
  show Loop.mk false (message a vars x).1 (Status.ofFault (message a vars x).2) = _
  rw [hm]
  rfl

theorem World.step_looping {name : CString} {w : World} (h : w.Looping name) (st : ProcStep) :
    (w.step st).Looping name ∧ (w.step st).tracked = w.tracked.step name st := by
  unfold World.step
  cases hst : w.procs.after st with
  | none =>
    refine ⟨h, ?_⟩
    unfold Tracked.step
    simp only [World.tracked, hst]
  | some q =>
    obtain ⟨g', he, hn, hl, ht⟩ := event_step (g := { w.tracker.vars with
      printed := w.tracker.vars.printed ++ announceAll st.event }) h.procName h.procNameLen hst
    have hm : message announceAll w.tracker.vars ⟨eventMsg st.event, q.file st.pid⟩ =
        ({ g' with pids := g'.pids ++ [g'.procPid] }, none) := by
      rw [message_handled announceAll _ rfl]
      simp only [eventMsg, he]
    simp only [turn_message h.needExit h.status hm]
    exact ⟨⟨rfl, rfl, hn, hl⟩, ht.symm⟩

/-! ### The scan -/

/- The processes that the scan leaves out. -/
def StartsWithNine (pid : ℤ) : Prop := (decimal pid.toNat).head? = some 57

theorem scanned_decimal {ent : DirEnt} {pid : ℤ} (hd : ent.isDir = true) (hp : 0 < pid)
    (hn : ent.dName.bytes = decimal pid.toNat) : ent.scanned = true ↔ ¬ StartsWithNine pid := by
  obtain ⟨c, rest, hc, hlo, hhi⟩ := decimal_head (n := pid.toNat) (by omega)
  have hat : ent.dName.at 0 = c := by
    unfold CString.at
    rw [hn, hc]
    rfl
  unfold DirEnt.scanned StartsWithNine
  rw [hd, hat, hc]
  simp only [List.head?_cons, Option.some.injEq, Bool.true_and, Bool.not_eq_true',
    Bool.or_eq_false_iff, decide_eq_false_iff_not, UInt8.le_iff_toNat_le, ← UInt8.toNat_inj,
    UInt8.reduceToNat]
  omega

theorem scanned_at {ent : DirEnt} (h : ent.scanned = true) :
    ent.isDir = true ∧ 48 < (ent.dName.at 0).toNat ∧ (ent.dName.at 0).toNat ≤ 57 := by
  simp only [DirEnt.scanned, Bool.and_eq_true, Bool.not_eq_true', Bool.or_eq_false_iff,
    decide_eq_false_iff_not, UInt8.le_iff_toNat_le, UInt8.reduceToNat] at h
  refine ⟨h.1, ?_, ?_⟩ <;> omega

theorem file_ne_noRead (p : Procs) (pid : ℤ) : p.file pid ≠ .noRead := by
  unfold Procs.file
  split <;> simp

theorem matches_file {p : Procs} {name : CString} {ent : DirEnt} {pid : ℤ}
    (hf : ent.file = p.file pid) : ent.matches name = true ↔ p.Runs name pid := by
  unfold DirEnt.matches Procs.Runs
  rw [hf]
  unfold Procs.file
  cases p.cmdline pid with
  | none => simp
  | some c => simp

/- The scan gives a process of the name, and fails to only if all of them are
left out. -/
theorem readProcs_lists {p : Procs} {proc : List DirEnt} (h : p.Lists proc) (name : CString) :
    ∃ pid lines, readProcs name proc = .ok (pid, lines) ∧
      (pid ≠ 0 → p.Runs name pid ∧ ¬ StartsWithNine pid) ∧
      (pid = 0 → ∀ q, p.Runs name q → StartsWithNine q) := by
  have hread : ∀ ent ∈ proc, ent.scanned = true → ent.file ≠ .noRead := by
    intro ent he hs
    obtain ⟨hd, hlo, hhi⟩ := scanned_at hs
    obtain ⟨pid, -, -, -, hf⟩ := h.sound ent he hd hlo hhi
    rw [hf]
    exact file_ne_noRead p pid
  rw [readProcs_eq_find name hread]
  cases hfind : proc.find? fun ent => ent.scanned && ent.matches name with
  | none =>
    refine ⟨0, [], rfl, fun hne => absurd rfl hne, fun _ q hq => ?_⟩
    obtain ⟨ent, he, hd, hn, hf⟩ := h.complete q hq.live
    have hnot := List.find?_eq_none.mp hfind ent he
    rw [Bool.and_eq_true, matches_file hf, scanned_decimal hd (p.pos hq.live) hn] at hnot
    exact Classical.not_not.mp fun hs => hnot ⟨hs, hq⟩
  | some ent =>
    have hent := List.find?_some hfind
    rw [Bool.and_eq_true] at hent
    obtain ⟨hd, hlo, hhi⟩ := scanned_at hent.1
    obtain ⟨pid, hp, hn, -, hf⟩ := h.sound ent (List.mem_of_find?_eq_some hfind) hd hlo hhi
    have hatoi : atoi ent.dName.bytes = pid := by
      rw [hn, atoi_decimal (by omega)]
      omega
    refine ⟨pid, [.foundEntry name ent.dName], by simp only [hatoi], ?_, ?_⟩
    · exact fun _ => ⟨(matches_file hf).mp hent.2, (scanned_decimal hd hp hn).mp hent.1⟩
    · exact fun h0 => absurd hp (by omega)

theorem World.start_looping {p : Procs} {proc : List DirEnt} (h : p.Lists proc)
    (argv1 : Option CString) :
    (World.start argv1 proc p).Looping (argv1.getD bash) ∧
      ((World.start argv1 proc p).tracked.pid ≠ 0 →
        p.Runs (argv1.getD bash) (World.start argv1 proc p).tracked.pid ∧
          ¬ StartsWithNine (World.start argv1 proc p).tracked.pid) ∧
      ((World.start argv1 proc p).tracked.pid = 0 →
        ∀ q, p.Runs (argv1.getD bash) q → StartsWithNine q) := by
  obtain ⟨pid, lines, hr, hsound, hcomplete⟩ := readProcs_lists h (argv1.getD bash)
  have hscan : World.start argv1 proc p = ⟨p, ⟨false, ⟨pid, some (argv1.getD bash),
      (argv1.getD bash).bytes.length, lines, [], [pid]⟩, .running⟩⟩ := by
    unfold World.start trackProcess scan
    rw [hr]
    rfl
  rw [hscan]
  exact ⟨⟨rfl, rfl, rfl, rfl⟩, hsound, hcomplete⟩

end KeepalivedDevel.TrackProcess
