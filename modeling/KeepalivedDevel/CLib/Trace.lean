import Mathlib.Tactic.Common
import Mathlib.Data.Nat.Notation

/-!
# Runs of systems of several parties

A system is a partial step function: an event of a party that cannot move is
`none`. A run is any list of events that are all possible, so the lists of
events are the interleavings. The rules say what holds at the end of every run,
and how long runs can be.
-/

namespace CLib.Trace

variable {σ ε : Type} (step : σ → ε → Option σ)

def run (s : σ) : List ε → Option σ
  | [] => some s
  | e :: es => (step s e).bind fun t => run t es

theorem run_cons {s u : σ} {e : ε} {es : List ε} :
    run step s (e :: es) = some u ↔ ∃ t, step s e = some t ∧ run step t es = some u :=
  Option.bind_eq_some_iff

theorem run_append {s u : σ} {es fs : List ε} :
    run step s (es ++ fs) = some u ↔ ∃ t, run step s es = some t ∧ run step t fs = some u := by
  induction es generalizing s with
  | nil => simp [run]
  | cons e es ih =>
    rw [List.cons_append, run_cons]
    simp only [ih, run_cons]
    constructor
    · intro ⟨t, hstep, v, hes, hfs⟩
      exact ⟨v, ⟨t, hstep, hes⟩, hfs⟩
    · intro ⟨v, ⟨t, hstep, hes⟩, hfs⟩
      exact ⟨t, hstep, v, hes, hfs⟩

section Allowed

variable {step} {P : σ → Prop} {A : ε → Prop}

/-- What the allowed events keep holds at the end of every run of them. -/
theorem run_invariant (keep : ∀ s e t, A e → P s → step s e = some t → P t) {s t : σ} {es : List ε}
    (hs : P s) (allowed : ∀ e ∈ es, A e) (h : run step s es = some t) : P t := by
  induction es generalizing s with
  | nil => exact Option.some.inj h ▸ hs
  | cons e es ih =>
    obtain ⟨u, hstep, hrun⟩ := (run_cons step).mp h
    have hu := keep s e u (allowed e List.mem_cons_self) hs hstep
    exact ih hu (fun f hf => allowed f (List.mem_cons_of_mem _ hf)) hrun

/-- Every event takes a unit at least of what is left to do. -/
theorem length_add_rank {r : σ → ℕ} (keep : ∀ s e t, A e → P s → step s e = some t → P t)
    (lower : ∀ s e t, A e → P s → step s e = some t → r t + 1 ≤ r s) {s t : σ} {es : List ε}
    (hs : P s) (allowed : ∀ e ∈ es, A e) (h : run step s es = some t) :
    es.length + r t ≤ r s := by
  induction es generalizing s with
  | nil =>
    rw [← Option.some.inj h]
    simp
  | cons e es ih =>
    obtain ⟨u, hstep, hrun⟩ := (run_cons step).mp h
    have he := allowed e List.mem_cons_self
    have hu := keep s e u he hs hstep
    have hrank := lower s e u he hs hstep
    have hrest := ih hu (fun f hf => allowed f (List.mem_cons_of_mem _ hf)) hrun
    rw [List.length_cons]
    omega

end Allowed

end CLib.Trace
