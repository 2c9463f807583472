import KeepalivedDevel.PatchesDoBuild.Reports

/-!
# The status a build is reported with

All builds that a sweep reports get the status of the one that was waited for.
This is their own when builds end one at a time; when they do not, one build that
succeeds can hide the failures of all others.
-/

namespace KeepalivedDevel.PatchesDoBuild
open CLib

variable {n : ℕ}

/-! ### Failures that are not seen -/

theorem report_control (s : State n) (c : Control n) (status : ℕ) (p : Fin n) :
    ({ s with control := c } : State n).report status p =
      { s.report status p with control := c } := by
  simp only [State.report]
  split
  · rfl
  · split <;> rfl

/- The inner loop as a whole, with no build ending in the meantime. -/
theorem run_looks (code : Fin n → ℕ) (s : State n) (round status : ℕ) (rest : List (Fin n)) :
    Trace.run (State.step code) { s with control := .sweeping round status rest }
        (List.replicate (rest.length + 1) .look) =
      some { rest.foldl (fun s p => s.report status p) s with control := .waiting (round + 1) } := by
  induction rest generalizing s with
  | nil => rfl
  | cons p rest ih =>
    rw [List.length_cons, List.replicate_succ, Trace.run_cons]
    refine ⟨_, rfl, ?_⟩
    rw [report_control]
    exact ih (s.report status p)

/- A sweep when all builds have ended reports those not reported yet with its status. -/
theorem foldl_report {s : State n} (hended : s.ended = Finset.univ) (rest : List (Fin n))
    (hnodup : rest.Nodup) (hfresh : ∀ p ∈ rest, p ∉ s.zeroed) :
    rest.foldl (fun s p => s.report 0 p) s =
      { s with printed := s.printed ++ rest.map (·, 0), zeroed := s.zeroed ∪ rest.toFinset } := by
  induction rest generalizing s with
  | nil => simp
  | cons p rest ih =>
    obtain ⟨hp, hnodup⟩ := List.nodup_cons.mp hnodup
    have hreport : s.report 0 p =
        { s with printed := s.printed ++ [(p, 0)], zeroed := insert p s.zeroed } := by
      simp [State.report, hfresh p List.mem_cons_self, hended]
    rw [List.foldl_cons, hreport, ih (by exact hended) hnodup]
    · simp
    · intro q hq
      have hne : q ≠ p := fun h => hp (h ▸ hq)
      simp [hne, hfresh q (List.mem_cons_of_mem _ hq)]

theorem foldl_report_zeroed {s : State n} (status : ℕ) (rest : List (Fin n))
    (hzeroed : s.zeroed = Finset.univ) : rest.foldl (fun s p => s.report status p) s = s := by
  induction rest with
  | nil => rfl
  | cons p rest ih =>
    have hreport : s.report status p = s := by simp [State.report, hzeroed]
    rw [List.foldl_cons, hreport, ih]

/- When all builds have been reported, the rounds that remain do nothing. -/
theorem run_rounds (code : Fin n → ℕ) (printed : List (Fin n × ℕ)) (js : List (Fin n))
    (waited : Finset (Fin n)) (hnodup : js.Nodup) (hjs : ∀ j ∈ js, j ∉ waited) (round : ℕ)
    (hround : round + js.length ≤ n) :
    Trace.run (State.step code) ⟨Finset.univ, waited, .waiting round, Finset.univ, printed, []⟩
        (js.flatMap fun j => .wait (some j) :: List.replicate (n + 1) .look) =
      some ⟨Finset.univ, waited ∪ js.toFinset, .waiting (round + js.length), Finset.univ,
        printed, []⟩ := by
  induction js generalizing waited round with
  | nil => simp [Trace.run]
  | cons j js ih =>
    obtain ⟨hj, hnodup⟩ := List.nodup_cons.mp hnodup
    rw [List.length_cons] at hround
    have hsweep := run_looks code
      ⟨Finset.univ, insert j waited, .waiting round, Finset.univ, printed, []⟩ round (code j)
      (List.finRange n)
    rw [foldl_report_zeroed _ _ rfl, List.length_finRange] at hsweep
    rw [List.flatMap_cons, List.cons_append, Trace.run_cons]
    refine ⟨_, ?_, (Trace.run_append _).mpr ⟨_, hsweep, ?_⟩⟩
    · have hlt : round < n := by omega
      simp [State.step, State.wait, hlt, hjs j List.mem_cons_self]
    · have hrest := ih (insert j waited) hnodup (fun k hk => ?_) (round + 1) (by omega)
      · rw [hrest]
        simp [Nat.add_assoc, Nat.add_comm 1]
      · have hne : k ≠ j := fun h => hj (h ▸ hk)
        simp [hne, hjs k (List.mem_cons_of_mem _ hk)]

theorem run_finishes (code : Fin n → ℕ) (s : State n) (js : List (Fin n)) (hnodup : js.Nodup)
    (hjs : ∀ j ∈ js, j ∉ s.ended) :
    Trace.run (State.step code) s (js.map .finish) =
      some { s with ended := s.ended ∪ js.toFinset } := by
  induction js generalizing s with
  | nil => simp [Trace.run]
  | cons j js ih =>
    obtain ⟨hj, hnodup⟩ := List.nodup_cons.mp hnodup
    rw [List.map_cons, Trace.run_cons]
    refine ⟨{ s with ended := insert j s.ended }, ?_, ?_⟩
    · simp [State.step, hjs j List.mem_cons_self]
    · rw [ih _ hnodup]
      · simp
      · intro k hk
        have hne : k ≠ j := fun h => hj (h ▸ hk)
        simp [hne, hjs k (List.mem_cons_of_mem _ hk)]

/-- If one build succeeds and the others end after it has been waited for but before the
sweep, they are all reported with its status: the script says that all builds succeeded,
whatever the others did and in whichever order it waits for them. -/
theorem success_hides_failures (code : Fin n → ℕ) (j : Fin n) (hj : code j = 0)
    (others : List (Fin n)) (hothers : (j :: others).Perm (List.finRange n)) :
    ∃ s, Trace.run (State.step code) State.start
        (.finish j :: .wait (some j) :: (others.map .finish ++ List.replicate (n + 1) .look ++
          others.flatMap fun k => .wait (some k) :: List.replicate (n + 1) .look)) = some s ∧
      s.control = .waiting n ∧ s.printed = (List.finRange n).map (·, 0) ∧ s.jobsFailed = [] := by
  have hlength : others.length + 1 = n := by simpa using hothers.length_eq
  obtain ⟨hfresh, hnodup⟩ := List.nodup_cons.mp (hothers.nodup_iff.mpr (List.nodup_finRange n))
  have hne : ∀ k ∈ others, k ≠ j := fun k hk h => hfresh (h ▸ hk)
  have hall : {j} ∪ others.toFinset = Finset.univ := by
    refine Finset.eq_univ_of_forall fun k => ?_
    have hk := hothers.mem_iff.mpr (List.mem_finRange k)
    simpa using hk
  have hfinish := run_finishes code
    ⟨{j}, {j}, .sweeping 0 0 (List.finRange n), ∅, [], []⟩ others hnodup (by simpa using hne)
  have hsweep := run_looks code ⟨Finset.univ, {j}, .waiting 0, ∅, [], []⟩ 0 0 (List.finRange n)
  rw [foldl_report rfl _ (List.nodup_finRange n) (by simp), List.length_finRange] at hsweep
  have hrounds := run_rounds code ((List.finRange n).map (·, 0)) others {j} hnodup
    (by simpa using hne) 1 (by omega)
  simp only [hall] at hfinish
  simp only [List.nil_append, Finset.empty_union, List.toFinset_finRange] at hsweep
  refine ⟨⟨Finset.univ, {j} ∪ others.toFinset, .waiting n, Finset.univ,
    (List.finRange n).map (·, 0), []⟩, ?_, rfl, rfl, rfl⟩
  refine (Trace.run_cons _).mpr ⟨⟨{j}, ∅, .waiting 0, ∅, [], []⟩, rfl, ?_⟩
  refine (Trace.run_cons _).mpr
    ⟨⟨{j}, {j}, .sweeping 0 0 (List.finRange n), ∅, [], []⟩, ?_, ?_⟩
  · have hpos : 0 < n := by omega
    simp [State.step, State.wait, hpos, hj]
  · rw [Nat.add_comm 1, hlength] at hrounds
    refine (Trace.run_append _).mpr ⟨_, (Trace.run_append _).mpr ⟨_, hfinish, hsweep⟩, ?_⟩
    exact hrounds

theorem success_hides_failures_two :
    ∃ s, Trace.run (State.step twoStatus) State.start
        (.finish 0 :: .wait (some 0) :: ([1].map .finish ++ List.replicate (2 + 1) .look ++
          [1].flatMap fun k => .wait (some k) :: List.replicate (2 + 1) .look)) = some s ∧
      s.control = .waiting 2 ∧ s.printed = (List.finRange 2).map (·, 0) ∧ s.jobsFailed = [] :=
  success_hides_failures twoStatus 0 rfl [1] (List.Perm.refl _)

/-! ### Builds that end one at a time -/

/-- The script waits, and no build has ended that it has not waited for. -/
def State.quiet (s : State n) : Bool :=
  match s.control with
  | .waiting _ => s.ended = s.waited
  | .sweeping .. => false

/- The same script, where a build ends only while all is quiet. -/
def State.spacedStep (code : Fin n → ℕ) (s : State n) : Event n → Option (State n)
  | .finish j => if s.quiet then s.step code (.finish j) else none
  | e => s.step code e

/-- At most one build has ended that is not reported, and it is the one whose status the
script has. -/
def State.Current (code : Fin n → ℕ) (s : State n) : Prop :=
  match s.control with
  | .waiting _ => ∀ j ∈ s.ended, ∀ k ∈ s.ended, j ∉ s.waited → k ∉ s.waited → j = k
  | .sweeping _ status _ => s.ended = s.waited ∧ ∀ k ∈ s.ended, k ∉ s.zeroed → status = code k

structure Exact (code : Fin n → ℕ) (s : State n) : Prop where
  accounted : Accounted code s
  current : s.Current code
  own : ∀ x ∈ s.printed, x.2 = code x.1

namespace Exact

variable {code : Fin n → ℕ} {s t : State n}

theorem start : Exact code (State.start : State n) where
  accounted := Accounted.start
  current := by simp [State.Current, State.start]
  own := by simp [State.start]

theorem finish (h : Exact code s) (hquiet : s.quiet) {j : Fin n}
    (hstep : s.step code (.finish j) = some t) : Exact code t := by
  have haccounted := h.accounted.step hstep
  cases step_spec hstep with
  | finish hj =>
    refine ⟨haccounted, ?_, h.own⟩
    cases hcontrol : s.control with
    | sweeping round status rest => simp [State.quiet, hcontrol] at hquiet
    | waiting round =>
      have hended : s.ended = s.waited := by simpa [State.quiet, hcontrol] using hquiet
      have hnew : ∀ k ∈ insert j s.ended, k ∉ s.waited → k = j :=
        fun k hk hkw => (Finset.mem_insert.mp hk).resolve_right (hended ▸ hkw)
      intro k hk l hl hkw hlw
      rw [hnew k hk hkw, hnew l hl hlw]

theorem step (h : Exact code s) {e : Event n} (hstep : s.spacedStep code e = some t) :
    Exact code t := by
  cases e with
  | finish j =>
    obtain ⟨hquiet, hstep⟩ := Option.ite_none_right_eq_some.mp hstep
    exact h.finish hquiet hstep
  | wait j =>
    replace hstep : s.step code (.wait j) = some t := hstep
    have haccounted := h.accounted.step hstep
    have hdue := h.accounted.due
    have hcurrent := h.current
    cases step_spec hstep with
    | @wait round j hcontrol hround hended hj =>
      rw [State.Due, hcontrol] at hdue
      rw [State.Current, hcontrol] at hcurrent
      have hlast : ∀ k ∈ s.ended, k ∉ s.waited → k = j :=
        fun k hk hkw => hcurrent k hk j hended hkw hj
      refine ⟨haccounted, ⟨?_, fun k hk hzero => ?_⟩, h.own⟩
      · refine Finset.Subset.antisymm (fun k hk => ?_) haccounted.waited
        by_cases hkw : k ∈ s.waited
        · exact Finset.mem_insert_of_mem hkw
        · exact hlast k hk hkw ▸ Finset.mem_insert_self ..
      · rw [hlast k hk fun hkw => hzero (hdue.2.2 k hkw)]
    | waitNone hcontrol hround hall =>
      rw [State.Due, hcontrol, hall, Finset.card_univ, Fintype.card_fin] at hdue
      omega
  | look =>
    replace hstep : s.step code .look = some t := hstep
    have haccounted := h.accounted.step hstep
    have hcurrent := h.current
    cases step_spec hstep with
    | skip hcontrol hp =>
      rw [State.Current, hcontrol] at hcurrent
      exact ⟨haccounted, hcurrent, h.own⟩
    | @report round status p rest hcontrol hzero hended =>
      rw [State.Current, hcontrol] at hcurrent
      refine ⟨haccounted, ⟨hcurrent.1, fun k hk hkz => ?_⟩, fun x hx => ?_⟩
      · exact hcurrent.2 k hk fun hmem => hkz (Finset.mem_insert_of_mem hmem)
      · rcases List.mem_append.mp hx with hx | hx
        · exact h.own x hx
        · rw [List.mem_singleton.mp hx]
          exact hcurrent.2 p hended hzero
    | next hcontrol =>
      rw [State.Current, hcontrol] at hcurrent
      exact ⟨haccounted, fun j hj _ _ hjw _ => (hjw (hcurrent.1 ▸ hj)).elim, h.own⟩

end Exact

/-- When no build ends before the script has come back to `wait -n` after the last one, each
build is reported with its own exit status, and those that failed are listed. -/
theorem spaced_builds_reported_exactly (code : Fin n → ℕ) (events : List (Event n)) (s : State n)
    (hrun : Trace.run (State.spacedStep code) State.start events = some s)
    (hover : s.control = .waiting n) :
    (∀ p status, (p, status) ∈ s.printed ↔ status = code p) ∧
      ∀ p, p ∈ s.jobsFailed ↔ code p ≠ 0 := by
  have h : Exact code s := Trace.run_invariant (A := fun _ => True)
    (fun _ _ _ _ hs hstep => hs.step hstep) Exact.start (fun _ _ => trivial) hrun
  have hprinted : ∀ p status, (p, status) ∈ s.printed ↔ status = code p := by
    intro p status
    refine ⟨fun hmem => h.own (p, status) hmem, fun hstatus => ?_⟩
    have hp := (h.accounted.perm_finRange hover).mem_iff.mpr (List.mem_finRange p)
    obtain ⟨⟨q, other⟩, hmem, rfl⟩ := List.mem_map.mp hp
    have hother : other = code q := h.own _ hmem
    rwa [hstatus, ← hother]
  refine ⟨hprinted, fun p => ?_⟩
  rw [h.accounted.failed]
  simp [hprinted]

theorem spaced_builds_reported_two :
    let s : State 2 := ⟨{0, 1}, {0, 1}, .waiting 2, {0, 1}, [(1, 2), (0, 0)], [1]⟩
    (∀ p status, (p, status) ∈ s.printed ↔ status = twoStatus p) ∧
      ∀ p, p ∈ s.jobsFailed ↔ twoStatus p ≠ 0 :=
  spaced_builds_reported_exactly twoStatus
    [.finish 1, .wait (some 1), .look, .look, .look, .finish 0, .wait (some 0), .look, .look, .look]
    ⟨{0, 1}, {0, 1}, .waiting 2, {0, 1}, [(1, 2), (0, 0)], [1]⟩ rfl rfl

end KeepalivedDevel.PatchesDoBuild
