import KeepalivedDevel.ProcessMonitor.Bounds
import Mathlib.Data.List.Forall2

/-!
# The `(no bufs)` mark of `process_monitor.c`

ENOBUFS sets `no_bufs` in every entry of the table, also in those of CPUs
nothing has been heard of, and an event clears it in the entry of its own CPU.
So the mark on a `Missed` line tells whether ENOBUFS came after the previous
event of the same CPU, and of the fields that `malloc` leaves unassigned none is
read.
-/

namespace KeepalivedDevel.ProcessMonitor
open ProcConnector

/-! ### The history of a run -/

/- Whether ENOBUFS was received after the last event of `cpu`; the last input is
the first of the list. -/
def enobufsSince (cpu : UInt32) : List (Input NlMsg) → Bool
  | [] => false
  | .enobufs :: _ => true
  | .message m :: past =>
    if m.handled = true ∧ m.cpu = cpu then false else enobufsSince cpu past

/- The events of a run, with the mark a `Missed` line of each would have. -/
def dueMarks (past : List (Input NlMsg)) : List (Input NlMsg) → List (UInt32 × Bool)
  | [] => []
  | .enobufs :: inputs => dueMarks (.enobufs :: past) inputs
  | .message m :: inputs =>
    if m.handled then (m.cpu, enobufsSince m.cpu past) :: dueMarks (.message m :: past) inputs
    else dueMarks (.message m :: past) inputs

/- The events printed, with the mark of their `Missed` line if there is one. -/
def Output.mark : Output → Option (UInt32 × Option Bool)
  | .event cpu _ _ missed => some (cpu, missed.map Missed.noBufs)
  | _ => none

def eventMarks (printed : List Output) : List (UInt32 × Option Bool) := printed.filterMap Output.mark

def MarkedAs (event : UInt32 × Option Bool) (due : UInt32 × Bool) : Prop :=
  event.1 = due.1 ∧ ∀ mark, event.2 = some mark → mark = due.2

/-! ### The table -/

def Entry.Knows (cpu : UInt32) (past : List (Input NlMsg)) (e : Entry) : Prop :=
  e.initialised = some false ∨ ∃ last, e = ⟨some true, some (enobufsSince cpu past), some last⟩

def Marks (n : ℕ) (past : List (Input NlMsg)) (table : List Entry) : Prop :=
  ∀ cpu : UInt32, cpu.toNat < n → ∃ e, table[cpu.toNat]? = some e ∧ e.Knows cpu past

section
variable {n : ℕ} {past : List (Input NlMsg)} {table : List Entry}

theorem marks_start (numCpus : UInt32) : Marks numCpus.toNat [] (start numCpus).table := by
  intro cpu hcpu
  refine ⟨⟨some false, none, none⟩, ?_, .inl rfl⟩
  show (List.replicate numCpus.toNat _)[cpu.toNat]? = _
  rw [List.getElem?_replicate_of_lt hcpu]

theorem Marks.enobufs (h : Marks n past table) :
    Marks n (.enobufs :: past) (table.map fun e => { e with noBufs := some true }) := by
  intro cpu hcpu
  obtain ⟨e, he, hk⟩ := h cpu hcpu
  refine ⟨{ e with noBufs := some true }, by rw [List.getElem?_map, he]; rfl, ?_⟩
  rcases hk with hi | ⟨last, rfl⟩
  · exact .inl hi
  · exact .inr ⟨last, rfl⟩

theorem Marks.skipped (h : Marks n past table) {m : NlMsg} (hm : m.handled = false) :
    Marks n (.message m :: past) table := by
  intro cpu hcpu
  obtain ⟨e, he, hk⟩ := h cpu hcpu
  refine ⟨e, he, ?_⟩
  simpa only [Entry.Knows, enobufsSince, hm, Bool.false_eq_true, false_and, ite_false] using hk

theorem Marks.handled (h : Marks n past table) {m : NlMsg} (hm : m.handled = true) :
    Marks n (.message m :: past)
      (table.set m.cpu.toNat ⟨some true, some false, some m.seq⟩) := by
  intro cpu hcpu
  obtain ⟨e, he, hk⟩ := h cpu hcpu
  by_cases hc : m.cpu = cpu
  · subst hc
    have hlt : m.cpu.toNat < table.length := (List.getElem?_eq_some_iff.mp he).1
    refine ⟨_, List.getElem?_set_self hlt, .inr ⟨m.seq, ?_⟩⟩
    simp only [enobufsSince, hm, and_self, ite_true]
  · have hne : m.cpu.toNat ≠ cpu.toNat := fun heq => hc (UInt32.toNat_inj.mp heq)
    refine ⟨e, by rw [List.getElem?_set_ne hne, he], ?_⟩
    simpa only [Entry.Knows, enobufsSince, hc, and_false, ite_false] using hk

theorem account_marks {cpu : UInt32} (h : Marks n past table) (hcpu : cpu.toNat < n)
    (seq : UInt32) :
    ∃ missed, account table cpu seq =
        .ok (table.set cpu.toNat ⟨some true, some false, some seq⟩, missed) ∧
      ∀ r, missed = some r → r.noBufs = enobufsSince cpu past := by
  obtain ⟨e, he, hi | ⟨last, rfl⟩⟩ := h cpu hcpu
  · exact ⟨none, account_first seq he hi, fun r hr => by cases hr⟩
  · refine ⟨_, account_again seq he, fun r hr => ?_⟩
    split at hr
    · cases hr
    · cases hr
      rfl

end

/-! ### Whole runs -/

theorem dueMarks_cons (past : List (Input NlMsg)) (i : Input NlMsg) (inputs : List (Input NlMsg)) :
    dueMarks past (i :: inputs) = dueMarks past [i] ++ dueMarks (i :: past) inputs := by
  cases i with
  | enobufs => rfl
  | message m =>
    simp only [dueMarks]
    split <;> rfl

/- What one input adds to the output, and what the table knows afterwards. -/
theorem feed_step {n : ℕ} {past : List (Input NlMsg)} {s : Monitor} (i : Input NlMsg)
    (h : Marks n past s.table) (hcpu : ∀ m, i = .message m → FromCpu n m) :
    ∃ s' more, handler.feed (s, none) i = (s', none) ∧ s'.printed = s.printed ++ more ∧
      Marks n (i :: past) s'.table ∧ List.Forall₂ MarkedAs (eventMarks more) (dueMarks past [i]) := by
  cases i with
  | enobufs => exact ⟨enobufs s, [.receivedEnobufs], rfl, rfl, h.enobufs, .nil⟩
  | message m =>
    show ∃ s' more, message s m = (s', none) ∧ _
    cases hh : m.handled with
    | false =>
      have hdue : dueMarks past [.message m] = [] := by simp [dueMarks, hh]
      rw [hdue]
      rcases message_skipped s hh with he | he
      · exact ⟨s, [], he, (List.append_nil _).symm, h.skipped hh, .nil⟩
      · exact ⟨_, [.receivedId m.idx m.val], he, rfl, h.skipped hh, .nil⟩
    | true =>
      have hdue : dueMarks past [.message m] = [(m.cpu, enobufsSince m.cpu past)] := by
        simp [dueMarks, hh]
      obtain ⟨missed, ha, hmark⟩ := account_marks h (hcpu m rfl hh) m.seq
      have hm := message_handled s hh
      rw [ha] at hm
      refine ⟨_, [.event m.cpu m.seq m.event missed], hm, rfl, h.handled hh, ?_⟩
      rw [hdue]
      refine .cons ⟨rfl, fun mark hmk => ?_⟩ .nil
      obtain ⟨r, hr, rfl⟩ := Option.map_eq_some_iff.mp hmk
      exact hmark r hr

theorem feed_marks {n : ℕ} {past : List (Input NlMsg)} {s : Monitor} (inputs : List (Input NlMsg))
    (h : Marks n past s.table) (hcpu : ∀ m ∈ messagesOf inputs, FromCpu n m) :
    ∃ s' more, inputs.foldl handler.feed (s, none) = (s', none) ∧ s'.printed = s.printed ++ more ∧
      List.Forall₂ MarkedAs (eventMarks more) (dueMarks past inputs) := by
  induction inputs generalizing past s with
  | nil => exact ⟨s, [], rfl, by simp, .nil⟩
  | cons i inputs ih =>
    have hhere : ∀ m, i = .message m → FromCpu n m := by
      rintro m rfl
      exact hcpu m (List.mem_cons_self ..)
    have hrest : ∀ m ∈ messagesOf inputs, FromCpu n m := by
      intro m hm
      cases i with
      | enobufs => exact hcpu m hm
      | message _ => exact hcpu m (List.mem_cons_of_mem _ hm)
    obtain ⟨s₁, now, hstep, hprinted, hmarks, hnow⟩ := feed_step i h hhere
    obtain ⟨s₂, more, hfold, hprinted', hmore⟩ := ih hmarks hrest
    refine ⟨s₂, now ++ more, ?_, ?_, ?_⟩
    · rw [List.foldl_cons, hstep, hfold]
    · rw [hprinted', hprinted, List.append_assoc]
    · rw [dueMarks_cons, eventMarks, List.filterMap_append]
      exact List.rel_append hnow hmore

theorem missed_marks (numCpus : UInt32) (turns : List (Turn NlMsg))
    (hcpu : ∀ m ∈ handler.received turns, FromCpu numCpus.toNat m) :
    (∀ f, (handleProcEv numCpus turns).status ≠ .fault f) ∧
      List.Forall₂ MarkedAs (eventMarks (handleProcEv numCpus turns).vars.printed)
        (dueMarks [] (handler.inputs turns)) := by
  obtain ⟨s', more, hf, hp, hm⟩ := feed_marks (handler.inputs turns) (marks_start numCpus) hcpu
  constructor
  · intro f hfault
    have hnone := run_fault handler hfault
    rw [hf] at hnone
    cases hnone
  · rw [handleProcEv, run_vars, hf, hp]
    exact hm

/- CPU 1 misses an event with ENOBUFS before it, CPU 0 one with none since its last. -/
def markedTurns : List (Turn NlMsg) :=
  [⟨.datagram [forkMsg 0 7, forkMsg 1 3], false⟩, ⟨.enobufs, false⟩,
    ⟨.datagram [forkMsg 0 8, forkMsg 1 5, forkMsg 0 11], false⟩]

theorem missed_marks_markedTurns :
    eventMarks (handleProcEv 2 markedTurns).vars.printed =
        [(0, none), (1, none), (0, none), (1, some true), (0, some false)] ∧
      List.Forall₂ MarkedAs (eventMarks (handleProcEv 2 markedTurns).vars.printed)
        (dueMarks [] (handler.inputs markedTurns)) := by
  refine ⟨by decide, (missed_marks 2 markedTurns ?_).2⟩
  unfold FromCpu
  decide

end KeepalivedDevel.ProcessMonitor
