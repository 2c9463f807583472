import Mathlib.Tactic.Common
import Mathlib.Data.Nat.Notation

/-!
# While loops with a decreasing measure

A C loop is a body that either goes round again with a new state or leaves the
loop with a result. `loop` runs a body on fuel, so it computes by structural
recursion; `run` is the total function obtained once a measure is known that
every further pass decreases. Proofs about a loop use `run_induction`, which
relates the state a loop is entered with to the result it is left with; `visits`
lists the states in between. A loop that may go on for ever is described by the
states it reaches.
-/

namespace CLib.While

/-- Outcome of one pass through a loop: another pass, or the result. -/
inductive Pass (σ ρ : Type) where
  | again (s : σ)
  | leave (r : ρ)
  deriving Repr, DecidableEq

variable {σ ρ : Type}

def loop (body : σ → Pass σ ρ) : ℕ → σ → Option ρ
  | 0, _ => none
  | fuel + 1, s =>
    match body s with
    | .leave r => some r
    | .again t => loop body fuel t

def Decreases (body : σ → Pass σ ρ) (measure : σ → ℕ) : Prop :=
  ∀ s t, body s = .again t → measure t < measure s

theorem loop_isSome {body : σ → Pass σ ρ} {measure : σ → ℕ} (h : Decreases body measure)
    (fuel : ℕ) (s : σ) (enough : measure s < fuel) : (loop body fuel s).isSome := by
  induction fuel generalizing s with
  | zero => omega
  | succ fuel ih =>
    rw [loop]
    cases hb : body s with
    | leave r => rfl
    | again t =>
      have ht := h s t hb
      exact ih t (by omega)

theorem loop_enough {body : σ → Pass σ ρ} {measure : σ → ℕ} (h : Decreases body measure)
    (m n : ℕ) (s : σ) (hm : measure s < m) (hn : measure s < n) :
    loop body m s = loop body n s := by
  induction m generalizing n s with
  | zero => omega
  | succ m ih =>
    cases n with
    | zero => omega
    | succ n =>
      rw [loop, loop]
      cases hb : body s with
      | leave r => rfl
      | again t =>
        have ht := h s t hb
        exact ih n t (by omega) (by omega)

/- The loop as a total function of the state it is entered with. -/
def run (body : σ → Pass σ ρ) (measure : σ → ℕ) (h : Decreases body measure) (s : σ) : ρ :=
  (loop body (measure s + 1) s).get (loop_isSome h _ s (Nat.lt_succ_self _))

theorem run_leave {body : σ → Pass σ ρ} {measure : σ → ℕ} (h : Decreases body measure)
    {s : σ} {r : ρ} (hb : body s = .leave r) : run body measure h s = r := by
  simp only [run, loop, hb, Option.get_some]

theorem run_again {body : σ → Pass σ ρ} {measure : σ → ℕ} (h : Decreases body measure)
    {s t : σ} (hb : body s = .again t) : run body measure h s = run body measure h t := by
  have ht := h s t hb
  have he : loop body (measure s + 1) s = loop body (measure t + 1) t := by
    rw [loop, hb]
    exact loop_enough h _ _ t ht (Nat.lt_succ_self _)
  simp only [run, he]

/-- A relation between entry state and result holds of the loop if it holds
when a pass leaves and is carried backwards over a further pass. -/
theorem run_induction {body : σ → Pass σ ρ} {measure : σ → ℕ} (h : Decreases body measure)
    {motive : σ → ρ → Prop} (leave : ∀ s r, body s = .leave r → motive s r)
    (again : ∀ s t r, body s = .again t → motive t r → motive s r) (s : σ) :
    motive s (run body measure h s) := by
  induction hn : measure s using Nat.strongRecOn generalizing s with
  | _ n ih =>
    cases hb : body s with
    | leave r =>
      rw [run_leave h hb]
      exact leave s r hb
    | again t =>
      rw [run_again h hb]
      exact again s t _ hb (ih (measure t) (hn ▸ h s t hb) t rfl)

/-! ### The states a loop goes through -/

def heads (body : σ → Pass σ ρ) : ℕ → σ → List σ
  | 0, _ => []
  | fuel + 1, s =>
    s :: match body s with
      | .leave _ => []
      | .again t => heads body fuel t

theorem heads_enough {body : σ → Pass σ ρ} {measure : σ → ℕ} (h : Decreases body measure)
    (m n : ℕ) (s : σ) (hm : measure s < m) (hn : measure s < n) :
    heads body m s = heads body n s := by
  induction m generalizing n s with
  | zero => omega
  | succ m ih =>
    cases n with
    | zero => omega
    | succ n =>
      rw [heads, heads]
      cases hb : body s with
      | leave r => rfl
      | again t =>
        have ht := h s t hb
        simp only [ih n t (by omega) (by omega)]

/-- The states at the head of the loop, in the order of its passes. -/
def visits (body : σ → Pass σ ρ) (measure : σ → ℕ) (s : σ) : List σ :=
  heads body (measure s + 1) s

theorem visits_leave {body : σ → Pass σ ρ} (measure : σ → ℕ) {s : σ} {r : ρ}
    (hb : body s = .leave r) : visits body measure s = [s] := by
  simp only [visits, heads, hb]

theorem visits_again {body : σ → Pass σ ρ} {measure : σ → ℕ} (h : Decreases body measure)
    {s t : σ} (hb : body s = .again t) :
    visits body measure s = s :: visits body measure t := by
  have ht := h s t hb
  simp only [visits]
  rw [heads, hb]
  simp only [heads_enough h (measure s) (measure t + 1) t ht (Nat.lt_succ_self _)]

theorem visits_ne_nil (body : σ → Pass σ ρ) (measure : σ → ℕ) (s : σ) :
    visits body measure s ≠ [] := by
  simp [visits, heads]

/- The state a loop is left from. -/
theorem visits_last {body : σ → Pass σ ρ} {measure : σ → ℕ} (h : Decreases body measure) {s t : σ}
    (hb : body s = .again t) :
    (visits body measure s).getLast? = (visits body measure t).getLast? := by
  rw [visits_again h hb, List.getLast?_cons_of_ne_nil (visits_ne_nil body measure t)]

/-! ### Loops that need not end -/

/-- The states at the head of the loop, when it is entered with `s`. -/
inductive Reaches (body : σ → Pass σ ρ) (s : σ) : σ → Prop where
  | enter : Reaches body s s
  | pass {t u : σ} : Reaches body s t → body t = .again u → Reaches body s u

def Ends (body : σ → Pass σ ρ) (s : σ) (r : ρ) : Prop := ∃ fuel, loop body fuel s = some r

theorem ends_leave {body : σ → Pass σ ρ} {s : σ} {r r' : ρ} (hb : body s = .leave r) :
    Ends body s r' ↔ r = r' := by
  constructor
  · rintro ⟨fuel, hf⟩
    cases fuel with
    | zero => cases hf
    | succ fuel =>
      rw [loop, hb] at hf
      exact Option.some.inj hf
  · rintro rfl
    exact ⟨1, by rw [loop, hb]⟩

theorem ends_again {body : σ → Pass σ ρ} {s t : σ} {r : ρ} (hb : body s = .again t) :
    Ends body s r ↔ Ends body t r := by
  constructor
  · rintro ⟨fuel, hf⟩
    cases fuel with
    | zero => cases hf
    | succ fuel =>
      rw [loop, hb] at hf
      exact ⟨fuel, hf⟩
  · rintro ⟨fuel, hf⟩
    exact ⟨fuel + 1, by rw [loop, hb]; exact hf⟩

theorem ends_iff_of_reaches {body : σ → Pass σ ρ} {s t : σ} (h : Reaches body s t) (r : ρ) :
    Ends body s r ↔ Ends body t r := by
  induction h with
  | enter => exact Iff.rfl
  | pass _ hb ih => exact ih.trans (ends_again hb)

/- A loop that goes round again from every state of an invariant does not end. -/
theorem not_ends {body : σ → Pass σ ρ} {I : σ → Prop}
    (h : ∀ s, I s → ∃ t, body s = .again t ∧ I t) {s : σ} (hs : I s) (r : ρ) : ¬ Ends body s r := by
  rintro ⟨fuel, hf⟩
  induction fuel generalizing s with
  | zero => cases hf
  | succ fuel ih =>
    obtain ⟨t, hb, ht⟩ := h s hs
    rw [loop, hb] at hf
    exact ih ht hf

theorem reaches_run {body : σ → Pass σ ρ} {measure : σ → ℕ} (h : Decreases body measure) (s : σ) :
    ∃ t, Reaches body s t ∧ body t = .leave (run body measure h s) := by
  have key : ∀ u, Reaches body s u → ∃ t, Reaches body s t ∧ body t = .leave (run body measure h u) := by
    intro u
    refine run_induction h
      (motive := fun u r => Reaches body s u → ∃ t, Reaches body s t ∧ body t = .leave r) ?_ ?_ u
    · intro t r hb ht
      exact ⟨t, ht, hb⟩
    · intro t u r hb ih ht
      exact ih (.pass ht hb)
  exact key s .enter

theorem ends_run {body : σ → Pass σ ρ} {measure : σ → ℕ} (h : Decreases body measure) (s : σ) :
    Ends body s (run body measure h s) :=
  ⟨measure s + 1, (Option.some_get _).symm⟩

/- A measure that decreases on the states reached brings the loop to an end. -/
theorem exists_ends {body : σ → Pass σ ρ} {s : σ} (measure : σ → ℕ)
    (h : ∀ t u, Reaches body s t → body t = .again u → measure u < measure t) :
    ∃ t r, Reaches body s t ∧ body t = .leave r := by
  have hreach : ∀ n t, Reaches body s t → measure t = n →
      ∃ t r, Reaches body s t ∧ body t = .leave r := by
    intro n
    induction n using Nat.strongRecOn with
    | _ n ih =>
      intro t ht hn
      cases hb : body t with
      | leave r => exact ⟨t, r, ht, hb⟩
      | again u => exact ih (measure u) (hn ▸ h t u ht hb) u (.pass ht hb) rfl
  exact hreach _ s .enter rfl

end CLib.While
