import KeepalivedDevel.CLib.Runs
import KeepalivedDevel.InotifyFile.Code
import Mathlib.Data.List.Induction

/-!
# What read_file closes

An event is handled later than the operation it tells of, so when `read_file` opens
the name it may be gone again, or may lead to something that cannot be opened;
`fclose` then gets a null pointer. Whether a call of `read_file` is due can be told
from the events that wait, so it is the operations on which all depends: the ones
that leave a name that does not open while a call is due.
-/

namespace KeepalivedDevel.InotifyFile
open CLib

/-! ### Calls of read_file that are due -/

/-- Whether the program, when it handles these events, comes to a call of `read_file`;
`fileWd` is the descriptor it has for the file. -/
def callsReadFile (fileWd : Option ℕ) : List InotifyEvent → Bool
  | [] => false
  | e :: events =>
    if fileWd = some e.wd then e.mask = .closeWrite || callsReadFile fileWd events
    else if e.wd = dirWd ∧ e.named then
      match e.mask with
      | .create | .movedTo => true
      | .delete | .movedFrom => callsReadFile none events
      | _ => callsReadFile fileWd events
    else callsReadFile fileWd events

/-- A call of `read_file` is due: the program comes to one without any further operation. -/
def System.readDue (s : System) : Bool :=
  match s.pc with
  | .watchFirst => s.watchable.isSome || callsReadFile none s.queue
  | .readFirst => s.fileWd.isSome || callsReadFile none s.queue
  | .poll => callsReadFile s.fileWd s.queue
  | .event => callsReadFile s.fileWd (s.buffer ++ s.queue)
  | .readFile => true
  | .fcloseNull => true

/-- What has the name can be opened, or no call is due. -/
def System.Settled (s : System) : Prop := s.fopen.isSome = true ∨ s.readDue = false

instance (s : System) : Decidable s.Settled := inferInstanceAs (Decidable (_ ∨ _))

/- Events that the watch of the file does not ask for, nor the end of the directory. -/
def InotifyEvent.Plain (e : InotifyEvent) : Prop := e.mask ≠ .deleteSelf ∧ e.mask ≠ .moveSelf

theorem callsReadFile_ignored (fileWd : Option ℕ) {ignored : List InotifyEvent}
    (h : ∀ e ∈ ignored, e.mask = .ignored) : callsReadFile fileWd ignored = false := by
  induction ignored with
  | nil => rfl
  | cons e ignored ih =>
    rw [List.forall_mem_cons] at h
    simp [callsReadFile, h.1, ih h.2]

theorem callsReadFile_append (fileWd : Option ℕ) (events : List InotifyEvent)
    {ignored : List InotifyEvent} (h : ∀ e ∈ ignored, e.mask = .ignored) :
    callsReadFile fileWd (events ++ ignored) = callsReadFile fileWd events := by
  induction events generalizing fileWd with
  | nil => exact callsReadFile_ignored fileWd h
  | cons e events ih =>
    rw [List.cons_append, callsReadFile, callsReadFile]
    simp only [ih]

/-! ### What the kernel's functions leave alone -/

/-- Nothing but the queue differs, by events at its end. -/
structure Queues (s t : System) (events : List InotifyEvent) : Prop where
  file : t.file = s.file
  access : t.access = s.access
  fileWd : t.fileWd = s.fileWd
  pc : t.pc = s.pc
  buffer : t.buffer = s.buffer
  queue : t.queue = s.queue ++ events

theorem enqueue_queues (s : System) (e : InotifyEvent) :
    ∃ events, Queues s (s.enqueue e) events ∧ ∀ d ∈ events, d = e := by
  unfold System.enqueue
  split
  · exact ⟨[], ⟨rfl, rfl, rfl, rfl, rfl, (List.append_nil _).symm⟩, by simp⟩
  · exact ⟨[e], ⟨rfl, rfl, rfl, rfl, rfl, rfl⟩, by simp⟩

theorem fileEvent_queues (s : System) (file : ℕ) (mask : Mask) :
    ∃ events, Queues s (s.fileEvent file mask) events ∧ ∀ d ∈ events, d.mask = mask := by
  unfold System.fileEvent
  cases s.watches.lookup file with
  | none => exact ⟨[], ⟨rfl, rfl, rfl, rfl, rfl, (List.append_nil _).symm⟩, by simp⟩
  | some wd =>
    obtain ⟨events, hq, he⟩ := enqueue_queues s ⟨wd, mask, false⟩
    exact ⟨events, hq, fun d hd => by rw [he d hd]⟩

/-- The program is not touched; the events at the end of the queue are plain ones. -/
structure System.Outside (s t : System) : Prop where
  pc : t.pc = s.pc
  buffer : t.buffer = s.buffer
  queue : ∃ events, t.queue = s.queue ++ events ∧ ∀ e ∈ events, e.Plain

theorem System.Outside.of_eq {s t : System} (hpc : t.pc = s.pc) (hbuffer : t.buffer = s.buffer)
    (hqueue : t.queue = s.queue) : s.Outside t :=
  ⟨hpc, hbuffer, [], by rw [hqueue, List.append_nil], by simp⟩

theorem Queues.outside {s t : System} {events : List InotifyEvent} (h : Queues s t events)
    (hplain : ∀ e ∈ events, e.Plain) : s.Outside t :=
  ⟨h.pc, h.buffer, events, h.queue, hplain⟩

theorem System.Outside.trans {s t u : System} (hst : s.Outside t) (htu : t.Outside u) :
    s.Outside u := by
  obtain ⟨first, hfirst, hplain⟩ := hst.queue
  obtain ⟨second, hsecond, hplain'⟩ := htu.queue
  refine ⟨htu.pc.trans hst.pc, htu.buffer.trans hst.buffer, first ++ second, ?_, ?_⟩
  · rw [hsecond, hfirst, List.append_assoc]
  · intro e he
    exact (List.mem_append.mp he).elim (hplain e) (hplain' e)

theorem dirEvent_outside (s : System) {mask : Mask} (h : mask ≠ .deleteSelf ∧ mask ≠ .moveSelf) :
    s.Outside (s.dirEvent mask) := by
  obtain ⟨events, hq, he⟩ := enqueue_queues s ⟨dirWd, mask, true⟩
  refine hq.outside fun e hmem => ?_
  rw [he e hmem]
  exact h

theorem fileEvent_outside (s : System) (file : ℕ) (mask : Mask)
    (h : mask ≠ .deleteSelf ∧ mask ≠ .moveSelf) : s.Outside (s.fileEvent file mask) := by
  obtain ⟨events, hq, he⟩ := fileEvent_queues s file mask
  refine hq.outside fun e hmem => ?_
  rw [InotifyEvent.Plain, he e hmem]
  exact h

/- What an operation does to the directory, and then the event it leads to. -/
theorem op_outside (s : System) (o : Op) : s.Outside (s.op o) := by
  have hdir : ∀ (t : System) (mask : Mask), t.pc = s.pc → t.buffer = s.buffer → t.queue = s.queue →
      mask ≠ .deleteSelf ∧ mask ≠ .moveSelf → s.Outside (t.dirEvent mask) :=
    fun t mask hpc hbuffer hqueue hmask =>
      (System.Outside.of_eq hpc hbuffer hqueue).trans (dirEvent_outside t hmask)
  cases o with
  | create access =>
    simp only [System.op]
    split
    · exact hdir _ _ rfl rfl rfl (by decide)
    · exact .of_eq rfl rfl rfl
  | write file text =>
    refine System.Outside.trans ?_ (fileEvent_outside _ file .closeWrite (by decide))
    exact .of_eq rfl rfl rfl
  | delete =>
    simp only [System.op]
    split
    · exact .of_eq rfl rfl rfl
    · exact hdir _ _ rfl rfl rfl (by decide)
  | moveFrom =>
    simp only [System.op]
    split
    · exact .of_eq rfl rfl rfl
    · exact hdir _ _ rfl rfl rfl (by decide)
  | moveTo file text access =>
    cases file with
    | none => exact hdir _ _ rfl rfl rfl (by decide)
    | some file =>
      simp only [System.op]
      split
      · exact .of_eq rfl rfl rfl
      · split
        · exact hdir _ _ rfl rfl rfl (by decide)
        · exact hdir _ _ rfl rfl rfl (by decide)
  | release file =>
    simp only [System.op]
    split
    · exact .of_eq rfl rfl rfl
    · refine System.Outside.trans (fileEvent_outside s file .ignored (by decide)) ?_
      exact .of_eq rfl rfl rfl
  | chmod file access => exact .of_eq rfl rfl rfl

/-! ### What the program's functions do -/

theorem watchFile_spec (s : System) :
    s.watchFile.file = s.file ∧ s.watchFile.access = s.access ∧ s.watchFile.buffer = s.buffer ∧
      s.watchFile.queue = s.queue ∧ s.watchFile.fileWd.isSome = s.watchable.isSome := by
  unfold System.watchFile
  split
  · next h => simp [h]
  · next h => split <;> simp [h]

theorem removeWatch_spec (s : System) :
    ∃ ignored, Queues { s with fileWd := none } s.removeWatch ignored ∧
      ∀ e ∈ ignored, e.mask = .ignored := by
  unfold System.removeWatch
  split
  · next h => exact ⟨[], ⟨rfl, rfl, h, rfl, rfl, (List.append_nil _).symm⟩, by simp⟩
  · next wd h =>
    split
    · obtain ⟨events, hq, he⟩ := enqueue_queues s ⟨wd, .ignored, false⟩
      refine ⟨events, ⟨hq.file, hq.access, rfl, hq.pc, hq.buffer, hq.queue⟩, ?_⟩
      exact fun d hd => by rw [he d hd]
    · exact ⟨[], ⟨rfl, rfl, rfl, rfl, rfl, (List.append_nil _).symm⟩, by simp⟩

theorem readFile_spec (s : System) :
    s.readFile.file = s.file ∧ s.readFile.access = s.access ∧ s.readFile.buffer = s.buffer ∧
      s.readFile.queue = s.queue ∧
      s.readFile.pc = if s.fopen.isSome then .event else .fcloseNull := by
  unfold System.readFile
  split
  · next h => simp [h]
  · next h =>
    split
    · simp [h]
    · split <;> simp [h]

/-- Everything that handling a plain event can do, with what it means for the calls of
`read_file`: there is one now, or the rest of the events decides. -/
inductive System.Handled (s : System) (e : InotifyEvent) : System → Prop where
  | written (h : ∀ events, callsReadFile s.fileWd (e :: events) = true) :
      Handled s e { s with pc := .readFile }
  | came (h : ∀ events, callsReadFile s.fileWd (e :: events) = true) :
      Handled s e { s.watchFile with pc := .readFile }
  | gone (h : ∀ events, callsReadFile s.fileWd (e :: events) = callsReadFile none events) :
      Handled s e s.removeWatch
  | pass (h : ∀ events, callsReadFile s.fileWd (e :: events) = callsReadFile s.fileWd events) :
      Handled s e s

theorem handle_cases (s : System) {e : InotifyEvent} (he : e.Plain) : s.Handled e (s.handle e) := by
  obtain ⟨wd, mask, named⟩ := e
  by_cases hfile : s.fileWd = some wd
  · -- an event of the file
    rw [System.handle, if_pos hfile]
    cases mask with
    | deleteSelf => exact absurd rfl he.1
    | moveSelf => exact absurd rfl he.2
    | closeWrite => exact .written fun events => by simp [callsReadFile, hfile]
    | create | delete | movedFrom | movedTo | ignored =>
      exact .pass fun events => by simp [callsReadFile, hfile]
  · rw [System.handle, if_neg hfile]
    by_cases hdir : wd = dirWd
    · subst hdir
      rw [if_pos rfl]
      cases named with
      | false =>
        cases mask with
        | deleteSelf => exact absurd rfl he.1
        | moveSelf => exact absurd rfl he.2
        | create | delete | movedFrom | movedTo | closeWrite | ignored =>
          exact .pass fun events => by simp [callsReadFile, hfile]
      | true =>
        cases mask with
        | deleteSelf => exact absurd rfl he.1
        | moveSelf => exact absurd rfl he.2
        | create | movedTo => exact .came fun events => by simp [callsReadFile, hfile]
        | delete | movedFrom => exact .gone fun events => by simp [callsReadFile, hfile]
        | closeWrite | ignored => exact .pass fun events => by simp [callsReadFile, hfile]
    · rw [if_neg hdir]
      exact .pass fun events => by simp [callsReadFile, hfile, hdir]

/-! ### A step of the program -/

/-- What holds in every state: the events that wait are plain, and outside of the loop over
the events none is left in the buffer. -/
structure System.Wf (s : System) : Prop where
  plain : ∀ e ∈ s.buffer ++ s.queue, e.Plain
  idle : s.pc = .watchFirst ∨ s.pc = .readFirst ∨ s.pc = .poll → s.buffer = []

theorem op_wf {s : System} (hs : s.Wf) (o : Op) : (s.op o).Wf := by
  obtain ⟨hpc, hbuffer, events, hqueue, hplain⟩ := op_outside s o
  refine ⟨?_, by rw [hpc, hbuffer]; exact hs.idle⟩
  rw [hbuffer, hqueue, ← List.append_assoc]
  intro e he
  exact (List.mem_append.mp he).elim (hs.plain e) (hplain e)

theorem fopen_eq {s t : System} (hfile : t.file = s.file) (haccess : t.access = s.access) :
    t.fopen = s.fopen := by
  unfold System.fopen
  rw [hfile, haccess]

/-- The directory is left alone, and a call of `read_file` is due exactly if it was. -/
structure System.Goes (s t : System) : Prop where
  wf : t.Wf
  fopen : t.fopen = s.fopen
  due : t.readDue = s.readDue
  pc : t.pc ≠ .fcloseNull

theorem handle_goes {t : System} {e : InotifyEvent} (hpc : t.pc = .event) (he : e.Plain)
    (hplain : ∀ d ∈ t.buffer ++ t.queue, d.Plain) :
    (t.handle e).Wf ∧ (t.handle e).fopen = t.fopen ∧ (t.handle e).pc ≠ .fcloseNull ∧
      (t.handle e).readDue = callsReadFile t.fileWd (e :: (t.buffer ++ t.queue)) := by
  have hcases := handle_cases t he
  generalize t.handle e = u at hcases
  cases hcases with
  | written h => exact ⟨⟨hplain, by simp⟩, rfl, by simp, by rw [h]; rfl⟩
  | came h =>
    obtain ⟨hfile, haccess, hbuffer, hqueue, -⟩ := watchFile_spec t
    refine ⟨⟨?_, by simp⟩, fopen_eq hfile haccess, by simp, by rw [h]; rfl⟩
    simp only [hbuffer, hqueue]
    exact hplain
  | gone h =>
    obtain ⟨ignored, hq, hignored⟩ := removeWatch_spec t
    have hpc' : t.removeWatch.pc = .event := hq.pc.trans hpc
    have hevents : t.removeWatch.buffer ++ t.removeWatch.queue = t.buffer ++ t.queue ++ ignored := by
      rw [hq.buffer, hq.queue, ← List.append_assoc]
    refine ⟨⟨?_, by simp [hpc']⟩, fopen_eq hq.file hq.access, by simp [hpc'], ?_⟩
    · rw [hevents]
      intro d hd
      rcases List.mem_append.mp hd with hd | hd
      · exact hplain d hd
      · rw [InotifyEvent.Plain, hignored d hd]
        decide
    · rw [h, System.readDue, hpc']
      simp only [hevents, hq.fileWd]
      exact callsReadFile_append none _ hignored
  | pass h =>
    refine ⟨⟨hplain, by simp [hpc]⟩, rfl, by simp [hpc], ?_⟩
    rw [h, System.readDue, hpc]

theorem readFile_wf {s : System} (hs : s.Wf) : s.readFile.Wf := by
  obtain ⟨-, -, hbuffer, hqueue, hpc⟩ := readFile_spec s
  refine ⟨by rw [hbuffer, hqueue]; exact hs.plain, ?_⟩
  rw [hpc]
  split <;> simp

/-- A step of the program is a call of `read_file`, which was due, or it goes on as before. -/
theorem run_cases {s : System} (hs : s.Wf) (hpc : s.pc ≠ .fcloseNull) (count : ℕ) :
    (s.run count = s.readFile ∧ s.readDue = true) ∨ s.Goes (s.run count) := by
  unfold System.run
  cases h : s.pc with
  | watchFirst =>
    obtain ⟨hfile, haccess, hbuffer, hqueue, hwd⟩ := watchFile_spec s
    have hnil := hs.idle (.inl h)
    refine .inr ⟨⟨?_, fun _ => hbuffer.trans hnil⟩, fopen_eq hfile haccess, ?_, by simp⟩
    · simp only [hbuffer, hqueue]
      exact hs.plain
    · simp [System.readDue, h, hwd, hqueue]
  | readFirst =>
    have hnil := hs.idle (.inr (.inl h))
    simp only
    split
    · next hwd =>
      refine .inr ⟨⟨hs.plain, fun _ => hnil⟩, rfl, ?_, by simp⟩
      simp [System.readDue, h, hwd]
    · next hwd =>
      refine .inl ⟨rfl, ?_⟩
      have hsome := Option.isSome_iff_ne_none.mpr hwd
      simp [System.readDue, h, hsome]
  | poll =>
    have hnil := hs.idle (.inr (.inr h))
    simp only
    split
    · exact .inr ⟨hs, rfl, rfl, hpc⟩
    · have hplain := hs.plain
      rw [hnil, List.nil_append] at hplain
      refine .inr ⟨⟨?_, by simp⟩, rfl, ?_, by simp⟩
      · simpa only [List.take_append_drop] using hplain
      · simp [System.readDue, h]
  | event =>
    simp only
    split
    · next hnil =>
      refine .inr ⟨⟨hs.plain, fun _ => hnil⟩, rfl, ?_, by simp⟩
      simp [System.readDue, h, hnil]
    · next e rest hbuffer =>
      have hplain := hs.plain
      rw [hbuffer, List.cons_append, List.forall_mem_cons] at hplain
      obtain ⟨hwf, hopen, hnull, hdue⟩ := handle_goes (t := { s with buffer := rest }) h hplain.1 hplain.2
      rw [h] at hwf hopen hnull hdue
      refine .inr ⟨hwf, hopen, ?_, hnull⟩
      rw [hdue, System.readDue, h, hbuffer, List.cons_append]
  | readFile => exact .inl ⟨rfl, by simp [System.readDue, h]⟩
  | fcloseNull => exact absurd h hpc

/-! ### Whole runs -/

/- Nothing is wrong so far, nor will be without further operations. -/
structure System.Safe (s : System) : Prop where
  wf : s.Wf
  pc : s.pc ≠ .fcloseNull
  settled : s.Settled

theorem run_safe {s : System} (hs : s.Safe) (count : ℕ) : (s.run count).Safe := by
  rcases run_cases hs.wf hs.pc count with ⟨hrun, hdue⟩ | hgoes
  · -- the call was due, so the file can be opened
    have hopen : s.fopen.isSome = true := by
      rcases hs.settled with hopen | hnot
      · exact hopen
      · rw [hdue] at hnot
        cases hnot
    obtain ⟨hfile, haccess, -, -, hpc⟩ := readFile_spec s
    rw [hopen, if_pos rfl] at hpc
    rw [hrun]
    refine ⟨readFile_wf hs.wf, by rw [hpc]; decide, .inl ?_⟩
    rw [fopen_eq hfile haccess, hopen]
  · refine ⟨hgoes.wf, hgoes.pc, ?_⟩
    unfold System.Settled
    rw [hgoes.fopen, hgoes.due]
    exact hs.settled

/- The program alone comes to an `fclose` of a null pointer. -/
def System.Fails (s : System) : Prop := ∃ counts : List ℕ, (counts.foldl System.run s).pc = .fcloseNull

theorem fails_of_run {s : System} (count : ℕ) (h : (s.run count).Fails) : s.Fails := by
  obtain ⟨counts, hcounts⟩ := h
  exact ⟨count :: counts, hcounts⟩

theorem readFile_fails {s : System} (hopen : s.fopen = none) : s.readFile.Fails := by
  obtain ⟨-, -, -, -, hpc⟩ := readFile_spec s
  rw [hopen] at hpc
  exact ⟨[], hpc⟩

/-- In the loop over the events, with these events the next ones: one of them is answered with
a call of `read_file`, for a name that cannot be opened. -/
structure System.Awaits (s : System) (events : List InotifyEvent) : Prop where
  wf : s.Wf
  pc : s.pc = .event
  waits : events <+: s.buffer ++ s.queue
  calls : callsReadFile s.fileWd events = true
  fopen : s.fopen = none

theorem System.Awaits.head {s : System} {e : InotifyEvent} {events rest : List InotifyEvent}
    (h : s.Awaits (e :: events)) (hbuffer : s.buffer = e :: rest) :
    s.Fails ∨ (s.run 0).Awaits events := by
  have hplain := h.wf.plain
  have hwaits := h.waits
  rw [hbuffer, List.cons_append, List.forall_mem_cons] at hplain
  rw [hbuffer, List.cons_append, List.cons_prefix_cons] at hwaits
  have hrun : s.run 0 = { s with buffer := rest }.handle e := by
    simp only [System.run, h.pc, hbuffer]
  obtain ⟨hwf, hfopen, -, -⟩ := handle_goes (t := { s with buffer := rest }) h.pc hplain.1 hplain.2
  have hnone := hfopen.trans h.fopen
  have hcases := handle_cases { s with buffer := rest } hplain.1
  have hfails := fails_of_run (s := s) 0
  rw [← hrun] at hwf hnone hcases
  generalize s.run 0 = u at hwf hnone hcases hfails
  cases hcases with
  | written _ => exact .inl (hfails (fails_of_run 0 (readFile_fails hnone)))
  | came _ => exact .inl (hfails (fails_of_run 0 (readFile_fails hnone)))
  | gone hcalls =>
    obtain ⟨ignored, hq, -⟩ := removeWatch_spec { s with buffer := rest }
    refine .inr ⟨hwf, hq.pc.trans h.pc, ?_, ?_, hnone⟩
    · rw [hq.buffer, hq.queue, ← List.append_assoc]
      exact hwaits.2.trans (List.prefix_append _ ignored)
    · rw [hq.fileWd, ← hcalls, h.calls]
  | pass hcalls =>
    refine .inr ⟨hwf, h.pc, hwaits.2, ?_, hnone⟩
    rw [← hcalls, h.calls]

theorem System.Awaits.fails {events : List InotifyEvent} {s : System} (h : s.Awaits events) :
    s.Fails := by
  induction events generalizing s with
  | nil => cases h.calls
  | cons e events ih =>
    have hhead : ∀ {t : System} {rest : List InotifyEvent}, t.Awaits (e :: events) →
        t.buffer = e :: rest → t.Fails := by
      intro t rest ht hbuffer
      rcases ht.head hbuffer with hfails | hnext
      · exact hfails
      · exact fails_of_run 0 (ih hnext)
    have hwaits := h.waits
    cases hbuffer : s.buffer with
    | cons d rest =>
      rw [hbuffer, List.cons_append, List.cons_prefix_cons] at hwaits
      exact hhead h (hwaits.1 ▸ hbuffer)
    | nil =>
      -- the buffer is empty: the next event is read first
      rw [hbuffer, List.nil_append] at hwaits
      obtain ⟨others, hqueue⟩ := hwaits
      have hplain := h.wf.plain
      rw [hbuffer, List.nil_append, ← hqueue] at hplain
      have hrun : (s.run 0).run 0 =
          { s with pc := .event, buffer := [e], queue := events ++ others } := by
        simp [System.run, h.pc, hbuffer, ← hqueue]
      refine fails_of_run 0 (fails_of_run 0 ?_)
      rw [hrun]
      exact hhead ⟨⟨hplain, by simp⟩, rfl, List.prefix_append (e :: events) others, h.calls, h.fopen⟩ rfl

/-- A call is due for a name that cannot be opened. -/
structure System.Unread (s : System) : Prop where
  wf : s.Wf
  due : s.readDue = true
  fopen : s.fopen = none

namespace System.Unread
variable {s : System} (h : s.Unread)
include h

/- The next step makes the call, or it is still due behind it. -/
theorem next (hpc : s.pc ≠ .fcloseNull) (hnext : (s.run 0).Unread → (s.run 0).Fails) : s.Fails := by
  refine fails_of_run 0 ?_
  rcases run_cases h.wf hpc 0 with ⟨hrun, -⟩ | hgoes
  · rw [hrun]
    exact readFile_fails h.fopen
  · exact hnext ⟨hgoes.wf, hgoes.due.trans h.due, hgoes.fopen.trans h.fopen⟩

theorem event (hpc : s.pc = .event) : s.Fails := by
  have hdue := h.due
  rw [System.readDue, hpc] at hdue
  exact System.Awaits.fails ⟨h.wf, hpc, List.prefix_refl _, hdue, h.fopen⟩

theorem poll (hpc : s.pc = .poll) : s.Fails := by
  refine h.next (by rw [hpc]; decide) fun hnext => hnext.event ?_
  have hne : s.queue ≠ [] := by
    intro hnil
    have hdue := h.due
    rw [System.readDue, hpc, hnil] at hdue
    cases hdue
  simp [System.run, hpc, hne]

theorem readFirst (hpc : s.pc = .readFirst) : s.Fails := by
  by_cases hwd : s.fileWd = none
  · exact h.next (by rw [hpc]; decide) fun hnext => hnext.poll (by simp [System.run, hpc, hwd])
  · have hrun : s.run 0 = s.readFile := by simp [System.run, hpc, hwd]
    refine fails_of_run 0 ?_
    rw [hrun]
    exact readFile_fails h.fopen

/-- A call that is due for a name that cannot be opened is made in the end. -/
theorem fails (hpc : s.pc ≠ .fcloseNull) : s.Fails := by
  cases hat : s.pc with
  | watchFirst => exact h.next hpc fun hnext => hnext.readFirst (by simp [System.run, hat])
  | readFirst => exact h.readFirst hat
  | poll => exact h.poll hat
  | event => exact h.event hat
  | readFile =>
    have hrun : s.run 0 = s.readFile := by simp only [System.run, hat]
    refine fails_of_run 0 ?_
    rw [hrun]
    exact readFile_fails h.fopen
  | fcloseNull => exact absurd hat hpc

end System.Unread

/-- The condition on a step, in the state before it: an operation leaves a name that can be
opened, or is done while no call of `read_file` is due. -/
def System.Allows (s : System) : Step → Prop
  | .op o => (s.op o).Settled
  | .run _ => True

theorem init_wf (file : Option (List UInt8 × Access)) : (System.init file).Wf :=
  ⟨by simp [System.init], fun _ => rfl⟩

theorem step_wf {s : System} (hs : s.Wf) (step : Step) : (s.step step).Wf := by
  cases step with
  | op o => exact op_wf hs o
  | run count =>
    by_cases hpc : s.pc = .fcloseNull
    · have hrun : s.run count = s := by simp only [System.run, hpc]
      rw [System.step, hrun]
      exact hs
    · rcases run_cases hs hpc count with ⟨hrun, -⟩ | hgoes
      · rw [System.step, hrun]
        exact readFile_wf hs
      · exact hgoes.wf

theorem steps_wf (file : Option (List UInt8 × Access)) (steps : List Step) :
    (steps.foldl System.step (System.init file)).Wf := by
  induction steps using List.reverseRecOn with
  | nil => exact init_wf file
  | append_singleton steps step ih =>
    rw [List.foldl_append]
    exact step_wf ih step

theorem step_safe {s : System} (hs : s.Safe) {step : Step} (h : s.Allows step) :
    (s.step step).Safe := by
  cases step with
  | op o => exact ⟨op_wf hs.wf o, by rw [System.step, (op_outside s o).pc]; exact hs.pc, h⟩
  | run count => exact run_safe hs count

theorem foldl_runs (s : System) (counts : List ℕ) :
    (counts.map Step.run).foldl System.step s = counts.foldl System.run s := by
  rw [List.foldl_map]
  rfl

theorem settled_of_not_fails {s : System} (hs : s.Wf) (hpc : s.pc ≠ .fcloseNull) (h : ¬ s.Fails) :
    s.Settled := by
  by_contra hnot
  rw [System.Settled, not_or, Bool.not_eq_true, Bool.not_eq_false, Option.isSome_eq_false_iff,
    Option.isNone_iff_eq_none] at hnot
  exact h (System.Unread.fails ⟨hs, hnot.2, hnot.1⟩ hpc)

/- The file is created and deleted before the program handles the first event. -/
def createdAndDeleted : List Step :=
  [.run 0, .run 0, .op (.create .opens), .op .delete, .run 0, .run 0, .run 0]

end KeepalivedDevel.InotifyFile
