import KeepalivedDevel.TrackProcess.Processes
import KeepalivedDevel.CLib.Runs

/-!
# When `proc_pid` tells the truth

A non-zero `proc_pid` should be a live process of the name, and a live process
of the name should make it non-zero. Each holds in every state of a run exactly
if the run avoids one kind of step.
-/

namespace KeepalivedDevel.TrackProcess
open CLib CLib.Runs

section
variable {p q : Procs} {name : CString} {pid other : ℤ} {c : List UInt8}

theorem runs_update_ne {o : Option (List UInt8)} (hq : q.cmdline = Function.update p.cmdline pid o)
    (hne : other ≠ pid) : q.Runs name other ↔ p.Runs name other := by
  unfold Procs.Runs
  rw [hq, Function.update_of_ne hne]

theorem runs_update_some (hq : q.cmdline = Function.update p.cmdline pid (some c)) :
    q.Runs name pid ↔ cstr c = name.bytes := by
  unfold Procs.Runs
  rw [hq, Function.update_self]
  simp

theorem not_runs_update_none (hq : q.cmdline = Function.update p.cmdline pid none) :
    ¬ q.Runs name pid := by
  unfold Procs.Runs
  rw [hq, Function.update_self]
  simp

end

/-! ### Soundness -/

/-- A non-zero `proc_pid` is a live process of the name. -/
def Sound (name : CString) (a : Tracked) : Prop := a.pid ≠ 0 → a.procs.Runs name a.pid

/-- The process at `proc_pid` becomes another program. -/
def Reexec (name : CString) (a : Tracked) : ProcStep → Prop
  | .exec pid c => (a.procs.cmdline pid).isSome ∧ pid = a.pid ∧ cstr c ≠ name.bytes
  | _ => False

section
variable {name : CString} {a : Tracked} {q : Procs}

theorem sound_fork (h : Sound name a) {parent child : ℤ}
    (hst : a.procs.after (.fork parent child) = some q) : Sound name ⟨q, a.pid⟩ := by
  intro hne
  obtain ⟨c, -, hchild, hq⟩ := after_fork hst
  have hold : a.procs.Runs name a.pid := h hne
  -- the child was not alive before, so it is another process
  have hother : a.pid ≠ child := by
    intro he
    have hlive := hold.live
    rw [he, hchild] at hlive
    cases hlive
  exact (runs_update_ne hq hother).mpr hold

theorem sound_exec_iff (h : Sound name a) {pid : ℤ} {c : List UInt8}
    (hst : a.procs.after (.exec pid c) = some q) :
    Sound name ⟨q, if cstr c = name.bytes then pid else a.pid⟩ ↔
      ¬ (pid = a.pid ∧ cstr c ≠ name.bytes) := by
  obtain ⟨hlive, hq⟩ := after_exec hst
  have hpos := a.procs.pos hlive
  by_cases hm : cstr c = name.bytes
  · simp only [Sound, hm, ite_true, ne_eq, not_true_eq_false, and_false, not_false_eq_true,
      iff_true]
    exact fun _ => (runs_update_some hq).mpr hm
  · simp only [Sound, hm, ite_false, not_false_eq_true, and_true, ne_eq]
    by_cases hp : pid = a.pid
    · -- `proc_pid` stays at a process that no longer runs the name
      subst hp
      rw [runs_update_some hq]
      simp only [hm, imp_false, not_not, not_true_eq_false, iff_false]
      omega
    · simp only [hp, not_false_eq_true, iff_true]
      exact fun hne => (runs_update_ne hq (Ne.symm hp)).mpr (h hne)

theorem sound_exit (h : Sound name a) {pid code sig : ℤ}
    (hst : a.procs.after (.exit pid code sig) = some q) :
    Sound name ⟨q, if pid = a.pid then 0 else a.pid⟩ := by
  obtain ⟨-, hq⟩ := after_exit hst
  by_cases hp : pid = a.pid
  · simp [Sound, hp]
  · simp only [Sound, hp, ite_false]
    exact fun hne => (runs_update_ne hq (Ne.symm hp)).mpr (h hne)

theorem sound_step_iff (h : Sound name a) (st : ProcStep) :
    Sound name (a.step name st) ↔ ¬ Reexec name a st := by
  unfold Tracked.step
  cases hst : a.procs.after st with
  | none =>
    refine ⟨fun _ hre => ?_, fun _ => h⟩
    cases st with
    | fork parent child => exact hre
    | exit pid code sig => exact hre
    | exec pid c => simp [Procs.after, hre.1] at hst
  | some q =>
    cases st with
    | fork parent child => exact ⟨fun _ hre => hre, fun _ => sound_fork h hst⟩
    | exec pid c =>
      have hlive := (after_exec hst).1
      simp only [Reexec, hlive, true_and]
      exact sound_exec_iff h hst
    | exit pid code sig => exact ⟨fun _ hre => hre, fun _ => sound_exit h hst⟩

end

theorem always_sound_iff (argv1 : Option CString) (p : Procs) (proc : List DirEnt)
    (hl : p.Lists proc) (steps : List ProcStep) :
    Always World.step (fun w => Sound (argv1.getD bash) w.tracked) (World.start argv1 proc p) steps ↔
      EachStep World.step (fun w st => ¬ Reexec (argv1.getD bash) w.tracked st)
        (World.start argv1 proc p) steps := by
  obtain ⟨hloop, hsound, -⟩ := World.start_looping hl argv1
  have hstart : Sound (argv1.getD bash) (World.start argv1 proc p).tracked :=
    fun hne => (hsound hne).1
  rw [always_iff_eachStep World.step (I := World.Looping (argv1.getD bash))
    (C := fun w st => ¬ Reexec (argv1.getD bash) w.tracked st)
    (fun w st hw => (World.step_looping hw st).1) ?_ hloop steps]
  · exact ⟨fun h => h.2, fun h => ⟨hstart, h⟩⟩
  · intro w st hw hs
    show Sound _ (w.step st).tracked ↔ _
    rw [(World.step_looping hw st).2]
    exact sound_step_iff hs st

/- One process, a shell. -/
def shell : Procs where
  cmdline := fun pid => if pid = 2 then some [98, 97, 115, 104, 0] else none
  pos := by
    intro pid h
    split at h
    · omega
    · cases h

def shellEntry : DirEnt := ⟨true, ⟨[50], by decide⟩, .contents [98, 97, 115, 104, 0]⟩

theorem shell_lists : shell.Lists [shellEntry] := by
  have hname : shellEntry.dName.bytes = decimal (2 : ℤ).toNat := by
    simp [shellEntry, decimal, digitByte]
  refine ⟨?_, ?_⟩
  · intro ent he _ _ _
    rw [List.mem_singleton.mp he]
    exact ⟨2, by decide, hname, rfl, rfl⟩
  · intro pid hp
    have h2 : pid = 2 := by
      by_contra hne
      simp [shell, hne] at hp
    subst h2
    exact ⟨shellEntry, List.mem_singleton_self _, rfl, hname, rfl⟩

/- The child of the shell becomes an editor, then the shell exits. -/
theorem always_sound_child_exec :
    shell.Lists [shellEntry] ∧
      Always World.step (fun w => Sound bash w.tracked) (World.start none [shellEntry] shell)
        [.fork 2 3, .exec 3 [118, 105, 0], .exit 2 0 17] := by
  refine ⟨shell_lists, (always_sound_iff none shell [shellEntry] shell_lists _).mpr ?_⟩
  simp only [eachStep_cons, eachStep_nil, and_true]
  refine ⟨fun h => h, fun h => ?_, fun h => h⟩
  exact absurd h.2.1 (by decide)

/- The shell itself becomes an editor. -/
theorem not_always_sound_exec :
    ¬ ∀ (argv1 : Option CString) (p : Procs) (proc : List DirEnt), p.Lists proc →
      ∀ steps, Always World.step (fun w => Sound (argv1.getD bash) w.tracked)
        (World.start argv1 proc p) steps := by
  intro h
  have hs := h none shell [shellEntry] shell_lists [.exec 2 [118, 105, 0]] _ (List.prefix_refl _)
  obtain ⟨c, hc, hm⟩ := hs (by decide)
  have hvi : c = [118, 105, 0] := by
    have he : ([.exec 2 [118, 105, 0]].foldl World.step
        (World.start none [shellEntry] shell)).tracked.procs.cmdline 2 = some [118, 105, 0] := rfl
    exact Option.some.inj (hc.symm.trans he)
  rw [hvi] at hm
  exact absurd hm (by decide)

/-! ### Completeness -/

/-- A live process of the name makes `proc_pid` non-zero. -/
def Complete (name : CString) (a : Tracked) : Prop := (∃ pid, a.procs.Runs name pid) → a.pid ≠ 0

/-- The process at `proc_pid` exits while another one of the name is alive. -/
def Abandons (name : CString) (a : Tracked) : ProcStep → Prop
  | .exit pid _ _ => (a.procs.cmdline pid).isSome ∧ pid = a.pid ∧
      ∃ other, other ≠ pid ∧ a.procs.Runs name other
  | _ => False

section
variable {name : CString} {a : Tracked} {q : Procs}

theorem complete_fork (h : Complete name a) {parent child : ℤ}
    (hst : a.procs.after (.fork parent child) = some q) : Complete name ⟨q, a.pid⟩ := by
  rintro ⟨pid, hpid⟩
  obtain ⟨c, hparent, -, hq⟩ := after_fork hst
  apply h
  by_cases hc : pid = child
  · -- the child has the command line of its parent
    rw [hc, runs_update_some hq] at hpid
    exact ⟨parent, c, hparent, hpid⟩
  · exact ⟨pid, (runs_update_ne hq hc).mp hpid⟩

theorem complete_exec (h : Complete name a) {pid : ℤ} {c : List UInt8}
    (hst : a.procs.after (.exec pid c) = some q) :
    Complete name ⟨q, if cstr c = name.bytes then pid else a.pid⟩ := by
  rintro ⟨other, hother⟩
  obtain ⟨hlive, hq⟩ := after_exec hst
  have hpos := a.procs.pos hlive
  by_cases hm : cstr c = name.bytes
  · simp only [hm, ite_true]
    omega
  · simp only [hm, ite_false]
    have hne : other ≠ pid := by
      rintro rfl
      exact hm ((runs_update_some hq).mp hother)
    exact h ⟨other, (runs_update_ne hq hne).mp hother⟩

theorem runs_after_exit {pid code sig other : ℤ}
    (hst : a.procs.after (.exit pid code sig) = some q) :
    q.Runs name other ↔ other ≠ pid ∧ a.procs.Runs name other := by
  obtain ⟨-, hq⟩ := after_exit hst
  by_cases ho : other = pid
  · subst ho
    simp [not_runs_update_none hq]
  · simp [ho, runs_update_ne hq ho]

theorem complete_exit_iff (h : Complete name a) {pid code sig : ℤ}
    (hst : a.procs.after (.exit pid code sig) = some q) :
    Complete name ⟨q, if pid = a.pid then 0 else a.pid⟩ ↔
      ¬ (pid = a.pid ∧ ∃ other, other ≠ pid ∧ a.procs.Runs name other) := by
  simp only [Complete, runs_after_exit hst]
  by_cases hp : pid = a.pid
  · simp only [hp, ite_true, true_and, ne_eq, not_true_eq_false, imp_false]
  · simp only [hp, ite_false, false_and, not_false_eq_true, iff_true]
    rintro ⟨other, -, hother⟩
    exact h ⟨other, hother⟩

theorem complete_step_iff (h : Complete name a) (st : ProcStep) :
    Complete name (a.step name st) ↔ ¬ Abandons name a st := by
  unfold Tracked.step
  cases hst : a.procs.after st with
  | none =>
    refine ⟨fun _ hab => ?_, fun _ => h⟩
    cases st with
    | fork parent child => exact hab
    | exec pid c => exact hab
    | exit pid code sig => simp [Procs.after, hab.1] at hst
  | some q =>
    cases st with
    | fork parent child => exact ⟨fun _ hab => hab, fun _ => complete_fork h hst⟩
    | exec pid c => exact ⟨fun _ hab => hab, fun _ => complete_exec h hst⟩
    | exit pid code sig =>
      have hlive := (after_exit hst).1
      simp only [Abandons, hlive, true_and]
      exact complete_exit_iff h hst

end

theorem complete_start {argv1 : Option CString} {p : Procs} {proc : List DirEnt}
    (hl : p.Lists proc)
    (hscan : (∃ pid, p.Runs (argv1.getD bash) pid) →
      ∃ pid, p.Runs (argv1.getD bash) pid ∧ ¬ StartsWithNine pid) :
    Complete (argv1.getD bash) (World.start argv1 proc p).tracked := by
  intro hex h0
  obtain ⟨-, -, hmissed⟩ := World.start_looping hl argv1
  obtain ⟨pid, hruns, hnine⟩ := hscan hex
  exact hnine (hmissed h0 pid hruns)

/- Nothing is said of the runs at whose start every process of the name is left
out by the scan. -/
theorem always_complete_iff (argv1 : Option CString) (p : Procs) (proc : List DirEnt)
    (hl : p.Lists proc)
    (hscan : (∃ pid, p.Runs (argv1.getD bash) pid) →
      ∃ pid, p.Runs (argv1.getD bash) pid ∧ ¬ StartsWithNine pid) (steps : List ProcStep) :
    Always World.step (fun w => Complete (argv1.getD bash) w.tracked)
        (World.start argv1 proc p) steps ↔
      EachStep World.step (fun w st => ¬ Abandons (argv1.getD bash) w.tracked st)
        (World.start argv1 proc p) steps := by
  have hloop := (World.start_looping hl argv1).1
  rw [always_iff_eachStep World.step (I := World.Looping (argv1.getD bash))
    (C := fun w st => ¬ Abandons (argv1.getD bash) w.tracked st)
    (fun w st hw => (World.step_looping hw st).1) ?_ hloop steps]
  · exact ⟨fun h => h.2, fun h => ⟨complete_start hl hscan, h⟩⟩
  · intro w st hw hs
    show Complete _ (w.step st).tracked ↔ _
    rw [(World.step_looping hw st).2]
    exact complete_step_iff hs st

/- The shell forks and its child exits. -/
theorem always_complete_child_exit :
    shell.Lists [shellEntry] ∧ (shell.Runs bash 2 ∧ ¬ StartsWithNine 2) ∧
      Always World.step (fun w => Complete bash w.tracked) (World.start none [shellEntry] shell)
        [.fork 2 3, .exit 3 0 17] := by
  have hruns : shell.Runs bash 2 ∧ ¬ StartsWithNine 2 := by
    refine ⟨⟨_, rfl, by decide⟩, ?_⟩
    simp [StartsWithNine, decimal, digitByte]
  refine ⟨shell_lists, hruns, ?_⟩
  apply (always_complete_iff none shell [shellEntry] shell_lists (fun _ => ⟨2, hruns⟩) _).mpr
  simp only [eachStep_cons, eachStep_nil, and_true]
  refine ⟨fun h => h, fun h => ?_⟩
  exact absurd h.2.1 (by decide)

/- The shell forks and exits itself: its child is a shell as well. -/
theorem not_always_complete_fork_exit :
    ¬ ∀ (argv1 : Option CString) (p : Procs) (proc : List DirEnt), p.Lists proc →
      ∀ steps, Always World.step (fun w => Complete (argv1.getD bash) w.tracked)
        (World.start argv1 proc p) steps := by
  intro h
  have hc := h none shell [shellEntry] shell_lists [.fork 2 3, .exit 2 0 17] _ (List.prefix_refl _)
  exact hc ⟨3, [98, 97, 115, 104, 0], rfl, by decide⟩ (by decide)

end KeepalivedDevel.TrackProcess
