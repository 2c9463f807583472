import Mathlib.Data.Fintype.Basic
import Mathlib.Data.List.FinRange

/-!
# Waiting for the builds

`patches_do_build` starts one build for each patch and then waits as many times for
some build to end. After each `wait -n` it goes through all builds, and reports those
that are no longer there with the status of the one it has waited for. Builds may end
at any time, also while it goes through them. The times it prints are left out.
-/

namespace KeepalivedDevel.PatchesDoBuild

variable {n : ℕ}

/-- Where the script is: in `wait -n` for the given time, or with the builds it has still
to look at. After `n` times it gives its verdict. -/
inductive Control (n : ℕ) where
  | waiting (round : ℕ)
  | sweeping (round status : ℕ) (rest : List (Fin n))
  deriving DecidableEq

/-- The builds that have ended, those `wait -n` has returned, and the variables of the
script: `zeroed` are the builds whose `pids` entry is 0. -/
structure State (n : ℕ) where
  ended : Finset (Fin n)
  waited : Finset (Fin n)
  control : Control n
  zeroed : Finset (Fin n)
  printed : List (Fin n × ℕ)
  jobsFailed : List (Fin n)
  deriving DecidableEq

def State.start : State n := ⟨∅, ∅, .waiting 0, ∅, [], []⟩

inductive Event (n : ℕ) where
  | finish (j : Fin n)
  | wait (j : Option (Fin n))
  | look
  deriving DecidableEq

namespace State

/- The body of the inner loop: `kill -0` fails for a build that has ended. -/
def report (s : State n) (status : ℕ) (p : Fin n) : State n :=
  if p ∈ s.zeroed then s
  else if p ∉ s.ended then s
  else { s with
    printed := s.printed ++ [(p, status)]
    zeroed := insert p s.zeroed
    jobsFailed := if status ≠ 0 then s.jobsFailed ++ [p] else s.jobsFailed }

/- With no build left to wait for, `wait -n` has the status 127. -/
def wait (code : Fin n → ℕ) (s : State n) (j : Option (Fin n)) : Option (State n) :=
  match s.control with
  | .waiting round =>
    if round < n then
      match j with
      | some j =>
        if j ∈ s.ended ∧ j ∉ s.waited then
          some { s with
            waited := insert j s.waited
            control := .sweeping round (code j) (List.finRange n) }
        else none
      | none =>
        if s.waited = Finset.univ then
          some { s with control := .sweeping round 127 (List.finRange n) }
        else none
    else none
  | .sweeping .. => none

def look (s : State n) : Option (State n) :=
  match s.control with
  | .sweeping round status (p :: rest) =>
    some { s.report status p with control := .sweeping round status rest }
  | .sweeping round _ [] => some { s with control := .waiting (round + 1) }
  | .waiting _ => none

def step (code : Fin n → ℕ) (s : State n) : Event n → Option (State n)
  | .finish j => if j ∈ s.ended then none else some { s with ended := insert j s.ended }
  | .wait j => s.wait code j
  | .look => s.look

end State

/-- The transitions, with what makes each of them possible. -/
inductive Step (code : Fin n → ℕ) (s : State n) : Event n → State n → Prop
  | finish {j : Fin n} (hj : j ∉ s.ended) :
    Step code s (.finish j) { s with ended := insert j s.ended }
  | wait {round : ℕ} {j : Fin n} (hcontrol : s.control = .waiting round) (hround : round < n)
    (hended : j ∈ s.ended) (hj : j ∉ s.waited) :
    Step code s (.wait (some j))
      { s with waited := insert j s.waited, control := .sweeping round (code j) (List.finRange n) }
  | waitNone {round : ℕ} (hcontrol : s.control = .waiting round) (hround : round < n)
    (hall : s.waited = Finset.univ) :
    Step code s (.wait none) { s with control := .sweeping round 127 (List.finRange n) }
  | skip {round status : ℕ} {p : Fin n} {rest : List (Fin n)}
    (hcontrol : s.control = .sweeping round status (p :: rest)) (hp : p ∈ s.zeroed ∨ p ∉ s.ended) :
    Step code s .look { s with control := .sweeping round status rest }
  | report {round status : ℕ} {p : Fin n} {rest : List (Fin n)}
    (hcontrol : s.control = .sweeping round status (p :: rest)) (hzero : p ∉ s.zeroed)
    (hended : p ∈ s.ended) :
    Step code s .look
      { s with
        control := .sweeping round status rest
        printed := s.printed ++ [(p, status)]
        zeroed := insert p s.zeroed
        jobsFailed := if status ≠ 0 then s.jobsFailed ++ [p] else s.jobsFailed }
  | next {round status : ℕ} (hcontrol : s.control = .sweeping round status []) :
    Step code s .look { s with control := .waiting (round + 1) }

theorem step_spec {code : Fin n → ℕ} {s t : State n} {e : Event n} (h : s.step code e = some t) :
    Step code s e t := by
  cases e with
  | finish j =>
    simp only [State.step, Option.ite_none_left_eq_some, Option.some.injEq] at h
    obtain ⟨hj, rfl⟩ := h
    exact .finish hj
  | wait j =>
    simp only [State.step, State.wait] at h
    split at h
    · rename_i round hcontrol
      cases j with
      | none =>
        simp only [Option.ite_none_right_eq_some, Option.some.injEq] at h
        obtain ⟨hround, hall, rfl⟩ := h
        exact .waitNone hcontrol hround hall
      | some j =>
        simp only [Option.ite_none_right_eq_some, Option.some.injEq] at h
        obtain ⟨hround, ⟨hended, hj⟩, rfl⟩ := h
        exact .wait hcontrol hround hended hj
    · cases h
  | look =>
    simp only [State.step, State.look] at h
    split at h
    · rename_i round status p rest hcontrol
      obtain rfl := Option.some.inj h
      by_cases hzero : p ∈ s.zeroed
      · simp only [State.report, if_pos hzero]
        exact .skip hcontrol (.inl hzero)
      · by_cases hended : p ∈ s.ended
        · simp only [State.report, if_neg hzero, hended, not_true_eq_false, if_false]
          exact .report hcontrol hzero hended
        · simp only [State.report, if_neg hzero, hended, not_false_eq_true, if_true]
          exact .skip hcontrol (.inr hended)
    · rename_i round status hcontrol
      obtain rfl := Option.some.inj h
      exact .next hcontrol
    · cases h

end KeepalivedDevel.PatchesDoBuild
