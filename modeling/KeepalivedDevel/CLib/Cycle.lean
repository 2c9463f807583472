import KeepalivedDevel.CLib.While
import Mathlib.Data.Set.Card

/-!
# Loops over finitely many states

A loop whose state is made of machine words has finitely many states. It ends
exactly if it comes to no state a second time.
-/

namespace CLib.While

variable {σ ρ : Type} {body : σ → Pass σ ρ}

/-- The loop, entered with `s`, comes to some state again. -/
def Returns (body : σ → Pass σ ρ) (s : σ) : Prop :=
  ∃ t u, Reaches body s t ∧ body t = .again u ∧ Reaches body u t

theorem Reaches.trans {s t u : σ} (h : Reaches body s t) (h' : Reaches body t u) :
    Reaches body s u := by
  induction h' with
  | enter => exact h
  | pass _ hb ih => exact .pass ih hb

theorem Reaches.head {s u : σ} (h : Reaches body s u) :
    s = u ∨ ∃ t, body s = .again t ∧ Reaches body t u := by
  induction h with
  | enter => exact .inl rfl
  | @pass t u _ hb ih =>
    rcases ih with rfl | ⟨v, hv, hreach⟩
    · exact .inr ⟨u, hb, .enter⟩
    · exact .inr ⟨v, hv, .pass hreach hb⟩

theorem not_returns_of_ends {s : σ} {r : ρ} (h : Ends body s r) : ¬ Returns body s := by
  rintro ⟨t, u, ht, hb, hu⟩
  refine not_ends (I := fun x => Reaches body x t) ?_ .enter r ((ends_iff_of_reaches ht r).mp h)
  intro x hx
  rcases hx.head with rfl | ⟨y, hy, hreach⟩
  · exact ⟨u, hb, hu⟩
  · exact ⟨y, hy, hreach⟩

theorem leaves_iff_not_returns [Finite σ] (s : σ) :
    (∃ t r, Reaches body s t ∧ body t = .leave r) ↔ ¬ Returns body s := by
  constructor
  · rintro ⟨t, r, ht, hr⟩
    exact not_returns_of_ends ((ends_iff_of_reaches ht r).mpr ((ends_leave hr).mpr rfl))
  · intro h
    -- every pass leaves one state behind for good
    refine exists_ends (fun t => {u | Reaches body t u}.ncard) fun t u ht hb => ?_
    apply Set.ncard_lt_ncard _ (Set.toFinite _)
    refine ⟨fun v hv => (Reaches.pass .enter hb).trans hv, fun hsub => ?_⟩
    exact h ⟨t, u, ht, hb, hsub (a := t) .enter⟩

end CLib.While
