import KeepalivedDevel.TestIt.Code
import Mathlib.Data.List.TakeWhile

/-!
# What the two edits do to a line

An include line that is edited becomes a line that is none, and the other edit
brings it back. Lines that are no include lines may be edited as well, but do not
become include lines.
-/

namespace KeepalivedDevel.TestIt

open CLib ShLib.Sed

/-! ### Include lines -/

theorem include_head {line : Line} (h : isInclude line = true) :
    ∃ head rest, line = head ++ (directive ++ rest) ∧ '.' ∉ head ++ directive := by
  obtain ⟨rest, hrest⟩ := of_decide_eq_true h
  refine ⟨line.takeWhile blank, rest, ?_, ?_⟩
  · rw [hrest, List.takeWhile_append_dropWhile]
  · intro hdot
    rcases List.mem_append.mp hdot with hhead | hdirective
    · exact absurd (List.mem_takeWhile_imp hhead) (by decide)
    · exact absurd hdirective (by decide)

/- An include line starts with a blank or with the directive itself. -/
theorem include_first {line : Line} (h : isInclude line = true) :
    ∃ c cs, line = c :: cs ∧ c ≠ '/' ∧ c ≠ '.' := by
  cases line with
  | nil => exact absurd h (by decide)
  | cons c cs =>
    refine ⟨c, cs, rfl, ?_, ?_⟩
    · rintro rfl
      exact absurd (List.cons_prefix_cons.mp (of_decide_eq_true h)).1 (by decide)
    · rintro rfl
      exact absurd (List.cons_prefix_cons.mp (of_decide_eq_true h)).1 (by decide)

theorem start_of_not_mem {d u z : Line} {c : Char} (hc : c ∉ d) (h : d <+: u ++ c :: z) : d <+: u := by
  have hu : u ++ [c] <+: u ++ c :: z := ⟨z, by simp⟩
  rcases List.prefix_or_prefix_of_prefix h hu with hd | hd
  · rcases List.prefix_concat_iff.mp hd with rfl | hd
    · exact absurd (List.mem_append_right u (List.mem_singleton_self c)) hc
    · exact hd
  · exact absurd (hd.subset (List.mem_append_right u (List.mem_singleton_self c))) hc

/- With a slash in it, a line is an include line only by what stands before. -/
theorem include_before_slash {u z : Line} (h : isInclude (u ++ '/' :: z) = true) (y : Line) :
    isInclude (u ++ y) = true := by
  induction u with
  | nil => exact absurd (List.cons_prefix_cons.mp (of_decide_eq_true h)).1 (by decide)
  | cons c u ih =>
    by_cases hc : blank c = true
    · have hstep : ∀ s, isInclude (c :: s) = isInclude s := by
        intro s
        simp only [isInclude, List.dropWhile_cons, hc, ite_true]
      rw [List.cons_append, hstep] at h ⊢
      exact ih h
    · have hstep : ∀ s, isInclude (c :: s) = decide (directive <+: c :: s) := by
        intro s
        simp only [isInclude, List.dropWhile_cons, hc, ite_false, Bool.false_eq_true]
      rw [List.cons_append, hstep] at h ⊢
      have hstart : directive <+: c :: u := start_of_not_mem (by decide) (of_decide_eq_true h)
      exact decide_eq_true (hstart.trans (List.prefix_append (c :: u) y))

theorem not_include_slashes (line : Line) : isInclude (slashes ++ line) = false := by
  rw [Bool.eq_false_iff]
  intro h
  exact absurd (include_before_slash (u := []) h []) (by decide)

/- Up to the end of a directive, what follows does not matter. -/
theorem include_congr (w z z' : Line) :
    isInclude (w ++ (directive ++ z)) = isInclude (w ++ (directive ++ z')) := by
  induction w with
  | nil =>
    have hdirective : ∀ z, isInclude (directive ++ z) = true :=
      fun z => decide_eq_true (List.prefix_append directive z)
    rw [List.nil_append, List.nil_append, hdirective, hdirective]
  | cons c w ih =>
    by_cases hc : blank c = true
    · simp only [isInclude, List.cons_append, List.dropWhile_cons, hc, ite_true] at ih ⊢
      exact ih
    · have hlong : ∀ z, directive <+: c :: w ++ (directive ++ z) ↔ directive <+: c :: w ++ directive := by
        intro z
        rw [← List.append_assoc]
        refine ⟨fun h => List.prefix_of_prefix_length_le h (List.prefix_append _ z) ?_,
          fun h => h.trans (List.prefix_append _ z)⟩
        rw [List.length_append]
        omega
      simp only [isInclude, List.cons_append, List.dropWhile_cons, hc, ite_false, Bool.false_eq_true]
      exact decide_eq_decide.mpr ((hlong z).trans (hlong z').symm)

/-! ### Lines as patterns -/

theorem pattern_append (l m : Line) : pattern (l ++ m) = pattern l ++ pattern m := List.map_append ..

theorem pattern_length (l : Line) : (pattern l).length = l.length := List.length_map ..

theorem fitsHere_pattern_self (l t : Line) : fitsHere (pattern l) (l ++ t) = true := by
  induction l with
  | nil => rfl
  | cons c l ih =>
    rw [pattern, List.map_cons, List.cons_append, fitsHere, ← pattern, ih]
    by_cases hc : c = '.' <;> simp [hc]

theorem pattern_of_no_dot {l : Line} (h : '.' ∉ l) : pattern l = l.map some := by
  apply List.map_congr_left
  intro c hc
  rw [if_neg (ne_of_mem_of_not_mem hc h)]

theorem not_fitsHere_slash {line : Line} (h : isInclude line = true) (t : Line) :
    fitsHere (pattern line) ('/' :: t) = false := by
  obtain ⟨c, cs, rfl, hslash, hdot⟩ := include_first h
  simp [pattern, fitsHere, hslash, hdot]

theorem fitsHere_slashes {line s : Line} (h : fitsHere (pattern (slashes ++ line)) s = true) :
    ∃ t, s = slashes ++ t ∧ fitsHere (pattern line) t = true := by
  have hslashes : pattern (slashes ++ line) = slashes.map some ++ pattern line := pattern_append ..
  rw [hslashes] at h
  obtain ⟨t, rfl⟩ := word_of_fitsHere h
  rw [fitsHere_append (List.length_map ..), Bool.and_eq_true] at h
  exact ⟨t, rfl, h.2⟩

theorem fits_of_fits_slashes {line s : Line} (h : fits (pattern (slashes ++ line)) s = true) :
    fits (pattern line) s = true := by
  have hhere : ∀ s, fitsHere (pattern (slashes ++ line)) s = true → fits (pattern line) s = true := by
    intro s hs
    obtain ⟨t, rfl, ht⟩ := fitsHere_slashes hs
    have htail : fits (pattern line) t = true := by
      cases t with
      | nil => exact ht
      | cons c t => rw [fits, ht, Bool.true_or]
    rw [slashes, List.cons_append, fits, List.cons_append, List.nil_append, fits, htail, Bool.or_true,
      Bool.or_true]
  induction s with
  | nil => exact hhere [] h
  | cons c s ih =>
    rw [fits, Bool.or_eq_true] at h
    rcases h with h | h
    · exact hhere _ h
    · rw [fits, ih h, Bool.or_true]

/-! ### The edits -/

/- Read as a pattern, no end of the line fits where the commented out line begins,
   unless it is made of dots. -/
def EndsApart (line : Line) : Prop :=
  ∀ d < line.length, 0 < d → fitsHere (pattern (line.drop d)) (slashes ++ line) = true →
    (line.drop d).all (· = '.') = true

instance (line : Line) : Decidable (EndsApart line) := Nat.decidableBallLT _ _

/-- Include lines that `sed` can tell from each other, and can find again behind two
slashes. -/
structure Apart (lines : List Line) : Prop where
  others : ∀ line ∈ lines, ∀ other ∈ lines, line ≠ other → fits (pattern line) other = false
  ends : ∀ line ∈ lines, EndsApart line

def commentLine (line now : Line) : Line := substitute (pattern line) (slashes ++ line) now

def uncommentLine (line now : Line) : Line := substitute (pattern (slashes ++ line)) line now

theorem commentLine_self (line : Line) : commentLine line line = slashes ++ line := by
  have h := fitsHere_pattern_self line []
  rw [List.append_nil] at h
  rw [commentLine, substitute_of_fitsHere h, pattern_length, List.drop_length, List.append_nil]

theorem uncommentLine_self (line : Line) : uncommentLine line (slashes ++ line) = line := by
  have h := fitsHere_pattern_self (slashes ++ line) []
  rw [List.append_nil] at h
  rw [uncommentLine, substitute_of_fitsHere h, pattern_length, List.drop_length, List.append_nil]

theorem commentLine_of_not_fits {line now : Line} (h : fits (pattern line) now = false) :
    commentLine line now = now :=
  substitute_of_not_fits h _

theorem uncommentLine_of_not_fits {line now : Line} (h : fits (pattern line) now = false) :
    uncommentLine line now = now := by
  apply substitute_of_not_fits
  rw [Bool.eq_false_iff]
  intro hfits
  rw [fits_of_fits_slashes hfits] at h
  cases h

theorem commentLine_not_include (line : Line) {now : Line} (h : isInclude now = false) :
    isInclude (commentLine line now) = false := by
  cases hfits : fits (pattern line) now with
  | false => rw [commentLine_of_not_fits hfits, h]
  | true =>
    obtain ⟨u, t, rfl, hfirst⟩ := exists_firstFit hfits
    rw [commentLine, substitute_of_firstFit hfirst, Bool.eq_false_iff]
    intro hinclude
    rw [include_before_slash hinclude t] at h
    cases h

/- Two slashes in front of a text that does not go on with one: with one slash only, the text
   would start with the other. -/
theorem slashes_before {w r s : Line} (hw : w ≠ []) (hs : w ++ (slashes ++ r) = slashes ++ s)
    (hslash : ∀ z, s ≠ '/' :: z) : ∃ x, x ≠ [] ∧ w = slashes ++ x ∧ s = x ++ (slashes ++ r) := by
  cases w with
  | nil => exact absurd rfl hw
  | cons c w =>
    obtain ⟨rfl, hrest⟩ := List.cons_eq_cons.mp hs
    cases w with
    | nil => exact absurd (List.cons_eq_cons.mp hrest).2.symm (hslash _)
    | cons d x =>
      obtain ⟨rfl, htext⟩ := List.cons_eq_cons.mp hrest
      refine ⟨x, ?_, rfl, htext.symm⟩
      rintro rfl
      exact hslash _ htext.symm

/- Where a line fits across the slashes, it has dots at its end, and fits without the slashes too. -/
theorem fitsHere_of_across {line x t v : Line} (hends : EndsApart line) (hx : x ≠ [])
    (hshort : x.length < line.length) (ht : line.length ≤ t.length)
    (h : fitsHere (pattern line) (x ++ (slashes ++ line ++ v)) = true) :
    fitsHere (pattern line) (x ++ t) = true := by
  have htake : (pattern (line.take x.length)).length = x.length := by
    rw [pattern_length, List.length_take]
    omega
  have hdrop : (pattern (line.drop x.length)).length ≤ (slashes ++ line).length := by
    rw [pattern_length, List.length_drop, List.length_append]
    omega
  have hsplit := pattern_append (line.take x.length) (line.drop x.length)
  rw [List.take_append_drop] at hsplit
  rw [hsplit, fitsHere_append htake, Bool.and_eq_true, fitsHere_append_text hdrop] at h
  have hdots := hends x.length hshort (List.length_pos_of_ne_nil hx) h.2
  have hrest : fitsHere (pattern (line.drop x.length)) t = true := by
    apply fitsHere_of_places
    · intro p hp
      obtain ⟨c, hc, rfl⟩ := List.mem_map.mp hp
      rw [if_pos (of_decide_eq_true (List.all_eq_true.mp hdots c hc))]
    · rw [pattern_length, List.length_drop]
      omega
  rw [hsplit, fitsHere_append htake, h.1, hrest, Bool.and_self]

/- The two slashes just written are the first ones with the line behind them. -/
theorem firstFit_slashes {line u t v : Line} (hline : isInclude line = true)
    (hends : EndsApart line)
    (hfirst : FirstFit (pattern line) u t) :
    FirstFit (pattern (slashes ++ line)) u (slashes ++ line ++ v) := by
  refine ⟨fitsHere_pattern_self _ v, ?_⟩
  intro w hw hne
  rw [Bool.eq_false_iff]
  intro hfits
  obtain ⟨s, hs, hline'⟩ := fitsHere_slashes hfits
  have hslash : ∀ z, s ≠ '/' :: z := by
    rintro z rfl
    rw [not_fitsHere_slash hline] at hline'
    cases hline'
  rw [List.append_assoc] at hs
  obtain ⟨x, hx, rfl, rfl⟩ := slashes_before hne hs hslash
  have hnot := hfirst.2 x ((List.suffix_append slashes x).trans hw) hx
  have hfit : fitsHere (pattern line) (x ++ t) = true := by
    by_cases hlong : line.length ≤ x.length
    · have hinside : (pattern line).length ≤ x.length := by rw [pattern_length]; exact hlong
      rwa [fitsHere_append_text hinside] at hline' ⊢
    · have hlength := length_of_fitsHere hfirst.1
      rw [pattern_length] at hlength
      rw [← List.append_assoc slashes] at hline'
      exact fitsHere_of_across hends hx (Nat.lt_of_not_le hlong) hlength hline'
  rw [hfit] at hnot
  cases hnot

/- Where the pattern of an include line fits, the text has the line's directive at
   the same place. -/
theorem include_replace {line u t : Line} (hline : isInclude line = true)
    (hfit : fitsHere (pattern line) t = true) (v : Line) :
    isInclude (u ++ (line ++ v)) = isInclude (u ++ t) := by
  obtain ⟨head, rest, hhead, hdot⟩ := include_head hline
  have hpattern : pattern line = (head ++ directive).map some ++ pattern rest := by
    rw [hhead, ← List.append_assoc, pattern_append, pattern_of_no_dot hdot]
  rw [hpattern] at hfit
  obtain ⟨t', rfl⟩ := word_of_fitsHere hfit
  rw [hhead, List.append_assoc head, List.append_assoc head, List.append_assoc directive,
    ← List.append_assoc u head, ← List.append_assoc u head, include_congr _ _ t']

theorem uncommentLine_not_include {line now : Line} (hline : isInclude line = true)
    (hends : EndsApart line)
    (h : isInclude now = false) : isInclude (uncommentLine line (commentLine line now)) = false := by
  cases hfits : fits (pattern line) now with
  | false => rw [commentLine_of_not_fits hfits, uncommentLine_of_not_fits hfits, h]
  | true =>
    obtain ⟨u, t, rfl, hfirst⟩ := exists_firstFit hfits
    have hagain := firstFit_slashes (v := t.drop (pattern line).length) hline hends hfirst
    rw [commentLine, substitute_of_firstFit hfirst, uncommentLine, substitute_of_firstFit hagain,
      pattern_length, List.drop_left, include_replace hline hfirst.1, h]

/- An include line stays one when both edits are made, also where the second one
   takes effect at an earlier place than the first. -/
theorem uncommentLine_include {line now : Line} (hline : isInclude line = true)
    (h : isInclude now = true) : isInclude (uncommentLine line (commentLine line now)) = true := by
  cases hfits : fits (pattern line) now with
  | false => rw [commentLine_of_not_fits hfits, uncommentLine_of_not_fits hfits, h]
  | true =>
    obtain ⟨u, t, rfl, hfirst⟩ := exists_firstFit hfits
    rw [commentLine, substitute_of_firstFit hfirst, uncommentLine]
    have hthere := fitsHere_pattern_self (slashes ++ line) (t.drop (pattern line).length)
    obtain ⟨u', t', htext, hfirst'⟩ : ∃ u' t', u ++ (slashes ++ line ++ t.drop (pattern line).length) =
        u' ++ t' ∧ FirstFit (pattern (slashes ++ line)) u' t' :=
      exists_firstFit (fits_append hthere u)
    rw [htext, substitute_of_firstFit hfirst']
    rcases List.append_eq_append_iff.mp htext with ⟨w, rfl, hw⟩ | ⟨w, rfl, rfl⟩
    · -- not behind the slashes just written
      have hnil : w = [] := by
        by_contra hne
        have hnot := hfirst'.2 w (List.suffix_append u w) hne
        rw [← hw, hthere] at hnot
        cases hnot
      subst hnil
      rw [List.append_nil, List.nil_append] at *
      rw [include_replace hline hfirst.1, h]
    · -- at slashes the line had before: it is an include line by what stands in front
      cases w with
      | nil =>
        rw [List.append_nil] at *
        rw [include_replace hline hfirst.1, h]
      | cons c w =>
        obtain ⟨s, hs, -⟩ := fitsHere_slashes hfirst'.1
        obtain rfl : c = '/' := (List.cons_eq_cons.mp hs).1
        rw [List.append_assoc, List.cons_append] at h
        exact include_before_slash h _

end KeepalivedDevel.TestIt
