import KeepalivedDevel.CLib.Text

/-!
# The substitute command of `sed`

`s:pattern:replacement:` replaces the first place in a line that fits a pattern,
if there is one. Patterns are made of symbols and of places that fit everything.
-/

namespace ShLib.Sed

open CLib

variable {α : Type} [DecidableEq α]

def substitute (pattern : List (Option α)) (replacement : List α) : List α → List α
  | [] => if fitsHere pattern [] then replacement else []
  | c :: s =>
    if fitsHere pattern (c :: s) then replacement ++ (c :: s).drop pattern.length
    else c :: substitute pattern replacement s

/-- The pattern fits at the beginning of `t`, and nowhere before in `u ++ t`. -/
def FirstFit (pattern : List (Option α)) (u t : List α) : Prop :=
  fitsHere pattern t = true ∧ ∀ w, w <:+ u → w ≠ [] → fitsHere pattern (w ++ t) = false

theorem substitute_of_fitsHere {pattern : List (Option α)} {t : List α}
    (h : fitsHere pattern t = true) (replacement : List α) :
    substitute pattern replacement t = replacement ++ t.drop pattern.length := by
  cases t with
  | nil => rw [substitute, if_pos h, List.drop_nil, List.append_nil]
  | cons c t => rw [substitute, if_pos h]

theorem substitute_of_firstFit {pattern : List (Option α)} {u t : List α}
    (h : FirstFit pattern u t) (replacement : List α) :
    substitute pattern replacement (u ++ t) = u ++ (replacement ++ t.drop pattern.length) := by
  obtain ⟨ht, hbefore⟩ := h
  induction u with
  | nil => exact substitute_of_fitsHere ht replacement
  | cons c u ih =>
    have hhere : fitsHere pattern (c :: (u ++ t)) = false :=
      hbefore (c :: u) List.suffix_rfl (List.cons_ne_nil c u)
    have hrest := ih fun w hw hne => hbefore w (hw.trans (List.suffix_cons c u)) hne
    rw [List.cons_append, substitute, hhere, hrest]
    rfl

theorem substitute_of_not_fits {pattern : List (Option α)} {s : List α}
    (h : fits pattern s = false) (replacement : List α) :
    substitute pattern replacement s = s := by
  induction s with
  | nil =>
    have hhere : fitsHere pattern [] = false := h
    rw [substitute, hhere]
    rfl
  | cons c s ih =>
    rw [fits, Bool.or_eq_false_iff] at h
    rw [substitute, h.1, ih h.2]
    rfl

theorem exists_firstFit {pattern : List (Option α)} {s : List α} (h : fits pattern s = true) :
    ∃ u t, s = u ++ t ∧ FirstFit pattern u t := by
  induction s with
  | nil => exact ⟨[], [], rfl, h, fun w hw hne => absurd (List.suffix_nil.mp hw) hne⟩
  | cons c s ih =>
    by_cases hhere : fitsHere pattern (c :: s) = true
    · exact ⟨[], c :: s, rfl, hhere, fun w hw hne => absurd (List.suffix_nil.mp hw) hne⟩
    · rw [fits, Bool.eq_false_iff.mpr hhere, Bool.false_or] at h
      obtain ⟨u, t, rfl, ht, hbefore⟩ := ih h
      refine ⟨c :: u, t, rfl, ht, ?_⟩
      intro w hw hne
      rcases List.suffix_cons_iff.mp hw with rfl | hw
      · exact Bool.eq_false_iff.mpr hhere
      · exact hbefore w hw hne

end ShLib.Sed
