import Mathlib.Tactic.Common
import Mathlib.Data.List.Basic

/-!
# Properties of all states of a run

A deterministic machine run on a list of inputs. A property of its states may
fail at some point of a run; the rule here says when it does not, in terms of
the single steps.
-/

namespace CLib.Runs

variable {σ ι : Type} (step : σ → ι → σ)

/-- A property of every state of a run, the first one included. -/
def Always (P : σ → Prop) (s : σ) (inputs : List ι) : Prop :=
  ∀ done, done <+: inputs → P (done.foldl step s)

/-- A property of every step of a run: of the input and of the state before it. -/
def EachStep (C : σ → ι → Prop) (s : σ) (inputs : List ι) : Prop :=
  ∀ done i, done ++ [i] <+: inputs → C (done.foldl step s) i

theorem always_nil {P : σ → Prop} {s : σ} : Always step P s [] ↔ P s := by
  constructor
  · intro h
    exact h [] (List.prefix_refl [])
  · intro h done hd
    rw [List.prefix_nil.mp hd]
    exact h

theorem always_cons {P : σ → Prop} {s : σ} {i : ι} {inputs : List ι} :
    Always step P s (i :: inputs) ↔ P s ∧ Always step P (step s i) inputs := by
  constructor
  · intro h
    refine ⟨h [] List.nil_prefix, fun done hd => ?_⟩
    exact h (i :: done) (List.cons_prefix_cons.mpr ⟨rfl, hd⟩)
  · rintro ⟨hs, h⟩ done hd
    cases done with
    | nil => exact hs
    | cons j done =>
      obtain ⟨rfl, hrest⟩ := List.cons_prefix_cons.mp hd
      exact h done hrest

theorem always_append {P : σ → Prop} {s : σ} {xs ys : List ι} :
    Always step P s (xs ++ ys) ↔ Always step P s xs ∧ Always step P (xs.foldl step s) ys := by
  induction xs generalizing s with
  | nil =>
    rw [List.nil_append, always_nil, List.foldl_nil]
    exact ⟨fun h => ⟨h [] List.nil_prefix, h⟩, fun h => h.2⟩
  | cons x xs ih => rw [List.cons_append, always_cons, always_cons, ih, List.foldl_cons, and_assoc]

theorem eachStep_nil {C : σ → ι → Prop} {s : σ} : EachStep step C s [] := by
  intro done i hd
  exact absurd (List.prefix_nil.mp hd) (by simp)

theorem eachStep_cons {C : σ → ι → Prop} {s : σ} {i : ι} {inputs : List ι} :
    EachStep step C s (i :: inputs) ↔ C s i ∧ EachStep step C (step s i) inputs := by
  constructor
  · intro h
    refine ⟨h [] i (by simp), fun done j hd => ?_⟩
    exact h (i :: done) j (List.cons_prefix_cons.mpr ⟨rfl, hd⟩)
  · rintro ⟨hs, h⟩ done j hd
    cases done with
    | nil =>
      obtain ⟨rfl, -⟩ := List.cons_prefix_cons.mp hd
      exact hs
    | cons k done =>
      obtain ⟨rfl, hrest⟩ := List.cons_prefix_cons.mp hd
      exact h done j hrest

/-- The invariant rule: `P` is kept by the steps that are under `C`. -/
theorem EachStep.always {P : σ → Prop} {C : σ → ι → Prop} {s : σ} {inputs : List ι}
    (h : EachStep step C s inputs) (hstep : ∀ s i, P s → C s i → P (step s i)) (hs : P s) :
    Always step P s inputs := by
  induction inputs generalizing s with
  | nil => exact (always_nil step).mpr hs
  | cons i inputs ih =>
    obtain ⟨hi, hrest⟩ := (eachStep_cons step).mp h
    exact (always_cons step).mpr ⟨hs, ih hrest (hstep s i hs hi)⟩

theorem EachStep.exists_of_mem {C : σ → ι → Prop} {s : σ} {inputs : List ι}
    (h : EachStep step C s inputs) {i : ι} (hi : i ∈ inputs) : ∃ t, C t i := by
  obtain ⟨done, rest, rfl⟩ := List.append_of_mem hi
  exact ⟨_, h done i ⟨rest, by simp⟩⟩

/-- What an invariant gives at every step, for runs whose steps are all under `D`. -/
theorem EachStep.of_invariant {I : σ → Prop} {C D : σ → ι → Prop}
    (hI : ∀ s i, I s → D s i → I (step s i)) (hC : ∀ s i, I s → D s i → C s i)
    {s : σ} (hs : I s) {inputs : List ι} (h : EachStep step D s inputs) :
    EachStep step C s inputs := by
  induction inputs generalizing s with
  | nil => exact eachStep_nil step
  | cons i inputs ih =>
    obtain ⟨hd, hrest⟩ := (eachStep_cons step).mp h
    exact (eachStep_cons step).mpr ⟨hC s i hs hd, ih (hI s i hs hd) hrest⟩

/-- Where a step keeps `P` exactly under `C`, a run keeps it exactly if all its
steps are under `C`. `I` is what every step keeps. -/
theorem always_iff_eachStep {I P : σ → Prop} {C : σ → ι → Prop}
    (hI : ∀ s i, I s → I (step s i)) (hP : ∀ s i, I s → P s → (P (step s i) ↔ C s i))
    {s : σ} (hs : I s) (inputs : List ι) :
    Always step P s inputs ↔ P s ∧ EachStep step C s inputs := by
  induction inputs generalizing s with
  | nil =>
    rw [always_nil]
    exact ⟨fun h => ⟨h, eachStep_nil step⟩, fun h => h.1⟩
  | cons i inputs ih =>
    rw [always_cons, eachStep_cons, ih (hI s i hs)]
    constructor
    · rintro ⟨h, hnext, hrest⟩
      exact ⟨h, (hP s i hs h).mp hnext, hrest⟩
    · rintro ⟨h, hc, hrest⟩
      exact ⟨h, (hP s i hs h).mpr hc, hrest⟩

end CLib.Runs
