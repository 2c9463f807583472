import KeepalivedDevel.CLib.Trace
import KeepalivedDevel.PatchesDoBuild.Code
import Mathlib.Data.Fintype.Card
import Mathlib.Tactic.Ring

/-!
# Every build is reported once

Every round of the outer loop waits for another build, and a build that has been
waited for is reported in the sweep that follows if it has not been before. So the
rounds are as many as are needed, however the builds end.
-/

namespace KeepalivedDevel.PatchesDoBuild
open CLib

variable {n : ℕ}

/-- Every time another build is waited for, and it is reported in the sweep that follows
if it has not been before. -/
def State.Due (code : Fin n → ℕ) (s : State n) : Prop :=
  match s.control with
  | .waiting round => round ≤ n ∧ s.waited.card = round ∧ ∀ j ∈ s.waited, j ∈ s.zeroed
  | .sweeping round status rest =>
    round < n ∧ s.waited.card = round + 1 ∧ (∃ j, status = code j) ∧
      ∀ j ∈ s.waited, j ∈ s.zeroed ∨ j ∈ rest

structure Accounted (code : Fin n → ℕ) (s : State n) : Prop where
  due : s.Due code
  waited : s.waited ⊆ s.ended
  zeroed : ∀ p, p ∈ s.zeroed ↔ p ∈ s.printed.map Prod.fst
  nodup : (s.printed.map Prod.fst).Nodup
  status : ∀ x ∈ s.printed, ∃ j, x.2 = code j
  failed : s.jobsFailed = (s.printed.filter fun x => x.2 ≠ 0).map Prod.fst

namespace Accounted

variable {code : Fin n → ℕ} {s t : State n}

theorem start : Accounted code (State.start : State n) where
  due := ⟨Nat.zero_le n, rfl, by simp [State.start]⟩
  waited := Finset.Subset.refl _
  zeroed := by simp [State.start]
  nodup := List.nodup_nil
  status := by simp [State.start]
  failed := rfl

theorem step (h : Accounted code s) {e : Event n} (hstep : s.step code e = some t) :
    Accounted code t := by
  have hdue := h.due
  cases step_spec hstep with
  | finish hj =>
    exact { h with
      due := hdue
      waited := fun j hj => Finset.mem_insert_of_mem (h.waited hj) }
  | @wait round j hcontrol hround hended hj =>
    rw [State.Due, hcontrol] at hdue
    obtain ⟨-, hcard, -⟩ := hdue
    refine { h with due := ⟨hround, ?_, ⟨j, rfl⟩, ?_⟩, waited := ?_ }
    · rw [Finset.card_insert_of_notMem hj, hcard]
    · exact fun k _ => .inr (List.mem_finRange k)
    · exact Finset.insert_subset hended h.waited
  | waitNone hcontrol hround hall =>
    rw [State.Due, hcontrol, hall, Finset.card_univ, Fintype.card_fin] at hdue
    omega
  | @skip round status p rest hcontrol hp =>
    rw [State.Due, hcontrol] at hdue
    obtain ⟨hround, hcard, hstatus, hrest⟩ := hdue
    refine { h with due := ⟨hround, hcard, hstatus, fun j hj => ?_⟩ }
    rcases hrest j hj with hzero | hmem
    · exact .inl hzero
    · rcases List.mem_cons.mp hmem with rfl | hmem
      · exact .inl (hp.resolve_right fun hended => hended (h.waited hj))
      · exact .inr hmem
  | @report round status p rest hcontrol hzero hended =>
    rw [State.Due, hcontrol] at hdue
    obtain ⟨hround, hcard, hstatus, hrest⟩ := hdue
    refine ⟨⟨hround, hcard, hstatus, fun j hj => ?_⟩, h.waited, fun q => ?_, ?_, ?_, ?_⟩
    · rcases hrest j hj with hj | hmem
      · exact .inl (Finset.mem_insert_of_mem hj)
      · rcases List.mem_cons.mp hmem with rfl | hmem
        · exact .inl (Finset.mem_insert_self ..)
        · exact .inr hmem
    · simp [h.zeroed q, or_comm]
    · have hfresh : p ∉ s.printed.map Prod.fst := fun hmem => hzero ((h.zeroed p).mpr hmem)
      rw [List.map_append]
      exact List.nodup_append_comm.mp (List.nodup_cons.mpr ⟨hfresh, h.nodup⟩)
    · simpa [or_imp, forall_and] using ⟨fun a b => h.status (a, b), hstatus⟩
    · by_cases hzero : status = 0 <;> simp [h.failed, hzero]
  | next hcontrol =>
    rw [State.Due, hcontrol] at hdue
    obtain ⟨hround, hcard, -, hrest⟩ := hdue
    exact { h with
      due := ⟨hround, hcard, fun j hj => (hrest j hj).resolve_right List.not_mem_nil⟩ }

theorem run {events : List (Event n)} (h : Trace.run (State.step code) State.start events = some t) :
    Accounted code t :=
  Trace.run_invariant (A := fun _ => True) (fun _ _ _ _ hs hstep => hs.step hstep) start
    (fun _ _ => trivial) h

/- While a build runs or has not been waited for, something can happen. -/
theorem finished (h : Accounted code s) (hstuck : ∀ e, s.step code e = none) :
    s.control = .waiting n := by
  have hdue := h.due
  cases hcontrol : s.control with
  | sweeping round status rest =>
    have hlook := hstuck .look
    rw [State.step, State.look, hcontrol] at hlook
    cases rest <;> cases hlook
  | waiting round =>
    rw [State.Due, hcontrol] at hdue
    obtain ⟨hle, hcard, -⟩ := hdue
    rcases Nat.lt_or_eq_of_le hle with hround | rfl
    · obtain ⟨j, hj⟩ : ∃ j, j ∉ s.waited := by
        by_contra hall
        push Not at hall
        rw [Finset.eq_univ_of_forall hall, Finset.card_univ, Fintype.card_fin] at hcard
        omega
      have hended : j ∈ s.ended := by
        by_contra hj
        have hfinish := hstuck (.finish j)
        simp [State.step, hj] at hfinish
      have hwait := hstuck (.wait (some j))
      simp [State.step, State.wait, hcontrol, hround, hended, hj] at hwait
    · rfl

/- When the script is over, all builds have been waited for and so reported. -/
theorem perm_finRange (h : Accounted code s) (hover : s.control = .waiting n) :
    (s.printed.map Prod.fst).Perm (List.finRange n) := by
  have hdue := h.due
  rw [State.Due, hover] at hdue
  obtain ⟨-, hcard, hzeroed⟩ := hdue
  have hall : s.waited = Finset.univ := by
    rw [← Finset.card_eq_iff_eq_univ, hcard, Fintype.card_fin]
  refine (List.perm_ext_iff_of_nodup h.nodup (List.nodup_finRange n)).mpr fun p => ?_
  have hp : p ∈ s.printed.map Prod.fst := (h.zeroed p).mp (hzeroed p (by simp [hall]))
  exact iff_of_true hp (List.mem_finRange p)

end Accounted

/- The events still to come: builds that end, and rounds of the outer loop. -/
def State.rank (s : State n) : ℕ :=
  n - s.ended.card +
    match s.control with
    | .waiting round => (n - round) * (n + 2)
    | .sweeping round _ rest => (n - round - 1) * (n + 2) + rest.length + 1

theorem rank_step {code : Fin n → ℕ} {s t : State n} {e : Event n} (hstep : s.step code e = some t) :
    t.rank + 1 = s.rank := by
  have hround : ∀ round < n, (n - round) * (n + 2) = (n - round - 1) * (n + 2) + n + 2 := by
    intro round hround
    obtain ⟨m, hm⟩ : ∃ m, n - round = m + 1 := ⟨n - round - 1, by omega⟩
    rw [hm, Nat.add_sub_cancel]
    ring
  cases step_spec hstep with
  | finish hj =>
    have hlt := Finset.card_lt_univ_of_notMem hj
    rw [Fintype.card_fin] at hlt
    simp only [State.rank, Finset.card_insert_of_notMem hj]
    omega
  | wait hcontrol hlt _ _ =>
    simp only [State.rank, hcontrol, List.length_finRange, hround _ hlt]
    omega
  | waitNone hcontrol hlt _ =>
    simp only [State.rank, hcontrol, List.length_finRange, hround _ hlt]
    omega
  | skip hcontrol _ =>
    simp only [State.rank, hcontrol, List.length_cons]
    omega
  | report hcontrol _ _ =>
    simp only [State.rank, hcontrol, List.length_cons]
    omega
  | next hcontrol =>
    simp only [State.rank, hcontrol, List.length_nil, Nat.sub_sub]
    omega

/-- However the builds end, the script comes to the end of its `n` rounds and has then reported
every build once, each with the exit status of some build. It lists those it has reported with a status
other than 0, so there is one that failed if it says so. -/
theorem builds_reported_once (code : Fin n → ℕ) (events : List (Event n)) (s : State n)
    (hrun : Trace.run (State.step code) State.start events = some s) :
    events.length ≤ n * (n + 3) ∧
      ((∀ e, s.step code e = none) →
        s.control = .waiting n ∧ (s.printed.map Prod.fst).Perm (List.finRange n) ∧
          (∀ x ∈ s.printed, ∃ j, x.2 = code j) ∧
          s.jobsFailed = (s.printed.filter fun x => x.2 ≠ 0).map Prod.fst ∧
          (s.jobsFailed ≠ [] → ∃ j, code j ≠ 0)) := by
  have h := Accounted.run hrun
  refine ⟨?_, fun hstuck => ?_⟩
  · have hlength := Trace.length_add_rank (A := fun _ => True) (P := fun _ => True)
      (fun _ _ _ _ _ _ => trivial) (fun _ _ _ _ _ h => (rank_step h).le) trivial
      (fun _ _ => trivial) hrun
    have hstart : (State.start : State n).rank = n * (n + 3) := by
      simp only [State.rank, State.start, Finset.card_empty, Nat.sub_zero]
      ring
    omega
  · have hcontrol := h.finished hstuck
    refine ⟨hcontrol, h.perm_finRange hcontrol, h.status, h.failed, fun hne => ?_⟩
    rw [h.failed, ne_eq, List.map_eq_nil_iff] at hne
    obtain ⟨x, hx⟩ := List.exists_mem_of_ne_nil _ hne
    obtain ⟨hmem, hstatus⟩ := List.mem_filter.mp hx
    obtain ⟨j, hj⟩ := h.status x hmem
    exact ⟨j, fun hzero => by simp [hj, hzero] at hstatus⟩

/- The second of two builds fails and ends first; both are gone at the first sweep. -/
def twoStatus (j : Fin 2) : ℕ := if j = 1 then 2 else 0

def twoEvents : List (Event 2) :=
  [.finish 1, .finish 0, .wait (some 1), .look, .look, .look, .wait (some 0), .look, .look, .look]

def twoReported : State 2 :=
  ⟨{0, 1}, {0, 1}, .waiting 2, {1, 0}, [(0, 2), (1, 2)], [0, 1]⟩

theorem builds_reported_once_two :
    twoEvents.length ≤ 2 * (2 + 3) ∧ twoReported.control = .waiting 2 ∧
      (twoReported.printed.map Prod.fst).Perm (List.finRange 2) ∧
      (∀ x ∈ twoReported.printed, ∃ j, x.2 = twoStatus j) ∧
      twoReported.jobsFailed = (twoReported.printed.filter fun x => x.2 ≠ 0).map Prod.fst ∧
      (twoReported.jobsFailed ≠ [] → ∃ j, twoStatus j ≠ 0) := by
  have hrun : Trace.run (State.step twoStatus) State.start twoEvents = some twoReported := rfl
  obtain ⟨hlength, hover⟩ := builds_reported_once twoStatus twoEvents twoReported hrun
  refine ⟨hlength, hover fun e => ?_⟩
  cases e with
  | finish j => match j with | 0 => rfl | 1 => rfl
  | wait j => rfl
  | look => rfl

end KeepalivedDevel.PatchesDoBuild
