import KeepalivedDevel.ProcessMonitor.Code

/-!
# Which entries of `cpu_seq` are used

The accounting after the switch uses `proc_ev->cpu` as an index for every kind
of event. A run stays inside the table exactly as long as all the events it
handles come from a CPU of the table, and the acknowledgement of the
subscription does not.
-/

namespace KeepalivedDevel.ProcessMonitor
open ProcConnector

/- A run that has used nothing but entries of a table of `n` CPUs. -/
structure Sound (n : ℕ) (s : Monitor) : Prop where
  length : s.table.length = n
  assigned : ∀ e ∈ s.table, e.Assigned
  inside : ∀ i ∈ s.accessed, i < n

/- The messages whose event indexes the table inside it, if it does at all. -/
def FromCpu (n : ℕ) (m : NlMsg) : Prop := m.handled = true → m.cpu.toNat < n

theorem sound_start (numCpus : UInt32) : Sound numCpus.toNat (start numCpus) := by
  refine ⟨List.length_replicate, ?_, ?_⟩
  · intro e he
    rw [List.eq_of_mem_replicate he]
    exact .inl rfl
  · intro i hi
    exact List.mem_range.mp hi

theorem inside_append {n : ℕ} {used more : List ℕ} (hu : ∀ i ∈ used, i < n)
    (hm : ∀ i ∈ more, i < n) : ∀ i ∈ used ++ more, i < n := by
  intro i hi
  rcases List.mem_append.mp hi with hi | hi
  · exact hu i hi
  · exact hm i hi

theorem assigned_set {table : List Entry} (h : ∀ e ∈ table, e.Assigned) (i : ℕ) (seq : UInt32) :
    ∀ e ∈ table.set i ⟨some true, some false, some seq⟩, e.Assigned := by
  intro e he
  rcases List.mem_or_eq_of_mem_set he with he | rfl
  · exact h e he
  · exact .inr ⟨false, seq, rfl⟩

theorem message_sound {n : ℕ} {s : Monitor} (hs : Sound n s) {m : NlMsg} (hm : FromCpu n m) :
    ∃ s', message s m = (s', none) ∧ Sound n s' := by
  cases hh : m.handled with
  | false =>
    rcases message_skipped s hh with he | he
    · exact ⟨s, he, hs⟩
    · exact ⟨_, he, hs.length, hs.assigned, hs.inside⟩
  | true =>
    have hlt : m.cpu.toNat < s.table.length := by
      rw [hs.length]
      exact hm hh
    have hentry : s.table[m.cpu.toNat]? = some s.table[m.cpu.toNat] := List.getElem?_eq_getElem hlt
    obtain ⟨missed, ha⟩ := account_assigned m.seq hentry (hs.assigned _ (List.getElem_mem hlt))
    refine ⟨_, by rw [message_handled s hh, ha], ?_, assigned_set hs.assigned _ _, ?_⟩
    · rw [List.length_set]
      exact hs.length
    · refine inside_append hs.inside fun i hi => ?_
      rw [List.mem_singleton.mp hi]
      exact hm hh

theorem message_outside {n : ℕ} {s : Monitor} (hs : Sound n s) {m : NlMsg} (hm : ¬ FromCpu n m) :
    ∃ s' f, message s m = (s', some f) ∧ ∃ i ∈ s'.accessed, n ≤ i := by
  simp only [FromCpu, Classical.not_imp, Nat.not_lt] at hm
  have hle : s.table.length ≤ m.cpu.toNat := by
    rw [hs.length]
    exact hm.2
  rw [message_handled s hm.1, account_outside m.seq hle]
  exact ⟨_, _, rfl, m.cpu.toNat, by simp, hm.2⟩

theorem enobufs_sound {n : ℕ} {s : Monitor} (hs : Sound n s) : Sound n (enobufs s) := by
  refine ⟨?_, ?_, ?_⟩
  · show (s.table.map _).length = n
    rw [List.length_map]
    exact hs.length
  · intro e he
    obtain ⟨d, hd, rfl⟩ := List.mem_map.mp he
    rcases hs.assigned d hd with hi | ⟨noBufs, last, rfl⟩
    · exact .inl hi
    · exact .inr ⟨true, last, rfl⟩
  · refine inside_append hs.inside fun i hi => ?_
    have hlt := List.mem_range.mp hi
    rw [hs.length] at hlt
    exact hlt

theorem feed_inside_iff {n : ℕ} {s : Monitor} (hs : Sound n s) (inputs : List (Input NlMsg)) :
    (∀ i ∈ (inputs.foldl handler.feed (s, none)).1.accessed, i < n) ↔
      ∀ m ∈ messagesOf inputs, FromCpu n m := by
  induction inputs generalizing s with
  | nil => exact ⟨fun _ m hm => absurd hm (by simp [messagesOf]), fun _ => hs.inside⟩
  | cons i inputs ih =>
    rw [List.foldl_cons]
    cases i with
    | enobufs => exact ih (enobufs_sound hs)
    | message m =>
      rw [messagesOf, List.forall_mem_cons]
      show (∀ i ∈ (inputs.foldl handler.feed (message s m)).1.accessed, i < n) ↔ _
      by_cases hf : FromCpu n m
      · obtain ⟨s', he, hs'⟩ := message_sound hs hf
        rw [he, ih hs']
        exact ⟨fun h => ⟨hf, h⟩, fun h => h.2⟩
      · obtain ⟨s', f, he, i, hi, hle⟩ := message_outside hs hf
        rw [he, foldl_feed_fault]
        exact ⟨fun h => absurd (h i hi) (by omega), fun h => absurd h.1 hf⟩

/-! ### What the kernel sends -/

/-- What is assumed of the kernel: process events come from one of the CPUs, and
the acknowledgement of the subscription carries no CPU. -/
def FromKernel (numCpus : UInt32) (m : NlMsg) : Prop :=
  m.handled = true → if m.event.isNone then m.cpu = 0xffffffff else m.cpu < numCpus

def IsAck (m : NlMsg) : Prop := m.handled = true ∧ m.event.isNone = true

theorem fromCpu_iff_not_isAck {numCpus : UInt32} {m : NlMsg} (h : FromKernel numCpus m) :
    FromCpu numCpus.toNat m ↔ ¬ IsAck m := by
  unfold FromKernel at h
  unfold FromCpu IsAck
  cases hh : m.handled with
  | false => simp
  | true =>
    have hk := h hh
    cases he : m.event.isNone with
    | false =>
      rw [he] at hk
      simpa [UInt32.lt_iff_toNat_lt] using hk
    | true =>
      rw [he] at hk
      simp only [ite_true] at hk
      have hn := numCpus.toNat_lt
      rw [hk]
      simp only [UInt32.reduceToNat, forall_const, and_self, not_true_eq_false, iff_false, Nat.not_lt]
      omega

theorem accessed_inside_iff_no_ack (numCpus : UInt32) (turns : List (Turn NlMsg))
    (h : ∀ m ∈ handler.received turns, FromKernel numCpus m) :
    (∀ i ∈ (handleProcEv numCpus turns).vars.accessed, i < numCpus.toNat) ↔
      ∀ m ∈ handler.received turns, ¬ IsAck m := by
  rw [handleProcEv, run_vars, feed_inside_iff (sound_start numCpus)]
  constructor
  · intro hc m hm
    exact (fromCpu_iff_not_isAck (h m hm)).mp (hc m hm)
  · intro ha m hm
    exact (fromCpu_iff_not_isAck (h m hm)).mpr (ha m hm)

def ackMsg : NlMsg := ⟨3, cnIdxProc, cnValProc, 0, 0xffffffff, .none 0⟩

def forkMsg (cpu seq : UInt32) : NlMsg := ⟨3, cnIdxProc, cnValProc, seq, cpu, .fork 1 1 2 2⟩

theorem accessed_inside_two_forks :
    (∀ i ∈ (handleProcEv 2 [⟨.datagram [forkMsg 0 7], false⟩, ⟨.enobufs, false⟩,
      ⟨.datagram [forkMsg 1 3, forkMsg 0 9], false⟩]).vars.accessed, i < (2 : UInt32).toNat) ∧
    ∀ m ∈ handler.received [⟨.datagram [forkMsg 0 7], false⟩, ⟨.enobufs, false⟩,
      ⟨.datagram [forkMsg 1 3, forkMsg 0 9], false⟩], FromKernel 2 m := by
  have hk : ∀ m ∈ handler.received [⟨.datagram [forkMsg 0 7], false⟩, ⟨.enobufs, false⟩,
      ⟨.datagram [forkMsg 1 3, forkMsg 0 9], false⟩], FromKernel 2 m := by
    unfold FromKernel
    decide
  refine ⟨(accessed_inside_iff_no_ack 2 _ hk).mpr ?_, hk⟩
  unfold IsAck
  decide

theorem accessed_outside_ack :
    ¬ ∀ turns, (∀ m ∈ handler.received turns, FromKernel 2 m) →
      ∀ i ∈ (handleProcEv 2 turns).vars.accessed, i < (2 : UInt32).toNat := by
  intro h
  have hk : ∀ m ∈ handler.received [⟨.datagram [ackMsg], false⟩], FromKernel 2 m := by
    unfold FromKernel
    decide
  have hi := h [⟨.datagram [ackMsg], false⟩] hk 0xffffffff (by decide)
  revert hi
  decide

end KeepalivedDevel.ProcessMonitor
