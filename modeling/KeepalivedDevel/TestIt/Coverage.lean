import KeepalivedDevel.TestIt.Lines
import Mathlib.Data.List.Perm.Subperm

/-!
# Which include lines are tried

There are as many trials as include lines from the second on, so all of these are
tried exactly if no trial is spent on anything else. Where the edits of a trial
leave the other include lines alone, the include lines of the file are those of the
original one without the lines that were left out, and the search is a sweep over
them: what it tries then follows from the outcomes.
-/

namespace KeepalivedDevel.TestIt

open CLib ShLib.Sed ShLib.Sweep

/-! ### The trials of a run -/

/- The line that the trial with number `i` takes from the file as it is then. -/
def taken (s : Search) (i : ℕ) : Line := (pick i (includes s.file)).getD []

theorem trial_trials (compiles : ℕ → Bool) (s : Search) (i : ℕ) :
    (trial compiles s i).trials = s.trials ++ [⟨taken s i, comment (taken s i) s.file, compiles i⟩] := by
  unfold trial taken
  cases compiles i <;> rfl

theorem trial_file (compiles : ℕ → Bool) (s : Search) (i : ℕ) :
    (trial compiles s i).file = if compiles i then comment (taken s i) s.file
      else uncomment (taken s i) (comment (taken s i) s.file) := by
  unfold trial taken
  cases compiles i <;> rfl

theorem trials_trials (compiles : ℕ → Bool) (file : List Line) (k : ℕ) :
    (trials compiles file k).trials = (List.range k).map fun j =>
      ⟨taken (trials compiles file j) (j + 2),
        comment (taken (trials compiles file j) (j + 2)) (trials compiles file j).file,
        compiles (j + 2)⟩ := by
  induction k with
  | zero => rfl
  | succ k ih =>
    rw [trials_succ, trial_trials, ih, List.range_succ, List.map_append]
    rfl

theorem mem_trials_line {compiles : ℕ → Bool} {file : List Line} {k : ℕ} {line : Line} :
    (∃ t ∈ (trials compiles file k).trials, t.line = line) ↔
      ∃ j < k, taken (trials compiles file j) (j + 2) = line := by
  rw [trials_trials]
  simp only [List.mem_map, List.mem_range, exists_exists_and_eq_and]

/-! ### What is tried and what is left out -/

/- The characters special to `sed`, in a basic regular expression, in a replacement
   or as the delimiter used, besides the dot. -/
def special : List Char := ['*', '[', ']', '^', '$', '\\', '&', ':', '\n']

/-- A C file whose include lines do not contain each other, with no character that
is special to `sed` besides the dot. -/
structure CFile where
  lines : List Line
  distinct : (includes lines).Pairwise fun line other => ¬ line <:+: other ∧ ¬ other <:+: line
  plain : ∀ line ∈ includes lines, ∀ c ∈ line, c ∉ special

/- Every include line from the second on is the line of a trial. -/
def Covered (compiles : ℕ → Bool) (file : List Line) : Prop :=
  ∀ line ∈ (includes file).tail, ∃ t ∈ (checkFile compiles file).trials, t.line = line

/- An include line that is none at the end was commented out by a trial, and the
   file of that trial compiled. -/
def Justified (compiles : ℕ → Bool) (file : List Line) : Prop :=
  ∀ (n : ℕ) (line now : Line), file[n]? = some line → isInclude line = true →
    (checkFile compiles file).file[n]? = some now → isInclude now = false →
    ∃ k t was tried, (checkFile compiles file).trials[k]? = some t ∧ t.compiled = true ∧
      (trials compiles file k).file[n]? = some was ∧ isInclude was = true ∧
      t.file[n]? = some tried ∧ isInclude tried = false

theorem CFile.nodup (f : CFile) : (includes f.lines).Nodup := by
  refine f.distinct.imp ?_
  rintro line other ⟨hnot, -⟩ rfl
  exact hnot (List.infix_refl line)

theorem isInclude_of_pick {file : List Line} {i : ℕ} {line : Line}
    (h : pick i (includes file) = some line) : line ∈ includes file ∧ isInclude line = true := by
  have hmem := List.mem_of_mem_take (List.mem_of_getLast? h)
  exact ⟨hmem, (List.mem_filter.mp hmem).2⟩

theorem comment_eq {line : Line} (hline : isInclude line = true) (file : List Line) :
    comment line file = file.map (commentLine line) := by
  have hne : line ≠ [] := by
    rintro rfl
    exact absurd hline (by decide)
  rw [comment, if_neg hne]
  rfl

theorem exists_pick {file : List Line} {line : Line} (h : line ∈ includes file) (i : ℕ) :
    ∃ taken, pick (i + 1) (includes file) = some taken := by
  have hfirst : ([] : List Line).length < i + 1 := Nat.succ_pos i
  obtain ⟨x, -, hx⟩ := pick_append hfirst (List.ne_nil_of_mem h)
  exact ⟨x, hx⟩

/- A trial that fails leaves every include line an include line. -/
theorem include_of_failed {compiles : ℕ → Bool} {s : Search} {i n : ℕ} {was : Line}
    (hfailed : compiles (i + 1) = false) (hn : s.file[n]? = some was) (hwas : isInclude was = true) :
    ∃ now, (trial compiles s (i + 1)).file[n]? = some now ∧ isInclude now = true := by
  have hmem : was ∈ includes s.file := List.mem_filter.mpr ⟨List.mem_of_getElem? hn, hwas⟩
  obtain ⟨line, hpick⟩ := exists_pick hmem i
  have hline := (isInclude_of_pick hpick).2
  refine ⟨uncommentLine line (commentLine line was), ?_, uncommentLine_include hline hwas⟩
  rw [trial_file, hfailed, taken, hpick]
  simp only [Bool.false_eq_true, ite_false, Option.getD_some, comment_eq hline, uncomment,
    List.getElem?_map, hn]
  rfl

theorem trial_length (compiles : ℕ → Bool) (s : Search) (i : ℕ) :
    (trial compiles s i).file.length = s.file.length := by
  have hcomment : ∀ line, (comment line s.file).length = s.file.length := by
    intro line
    unfold comment
    split
    · rfl
    · exact List.length_map ..
  rw [trial_file]
  split
  · exact hcomment _
  · rw [uncomment, List.length_map, hcomment]

/- Where a line stops being an include line, the trial compiled. -/
theorem exists_trial_without {compiles : ℕ → Bool} {file : List Line} {k n : ℕ} {line now : Line}
    (hn : file[n]? = some line) (hline : isInclude line = true)
    (hnow : (trials compiles file k).file[n]? = some now) (hgone : isInclude now = false) :
    ∃ j < k, ∃ was tried, compiles (j + 2) = true ∧
      (trials compiles file j).file[n]? = some was ∧ isInclude was = true ∧
      (comment (taken (trials compiles file j) (j + 2)) (trials compiles file j).file)[n]? =
        some tried ∧ isInclude tried = false := by
  induction k generalizing now with
  | zero =>
    obtain rfl := Option.some.inj (hn.symm.trans hnow)
    rw [hline] at hgone
    cases hgone
  | succ k ih =>
    rw [trials_succ] at hnow
    have hlt : n < (trials compiles file k).file.length := by
      rw [← trial_length compiles _ (k + 2)]
      exact (List.getElem?_eq_some_iff.mp hnow).1
    have hwas := List.getElem?_eq_getElem hlt
    cases hinclude : isInclude (trials compiles file k).file[n] with
    | false =>
      obtain ⟨j, hj, hjk⟩ := ih hwas hinclude
      exact ⟨j, by omega, hjk⟩
    | true =>
      cases hcompiles : compiles (k + 2) with
      | false =>
        obtain ⟨now', hnow', hinclude'⟩ := include_of_failed hcompiles hwas hinclude
        obtain rfl := Option.some.inj (hnow.symm.trans hnow')
        rw [hinclude'] at hgone
        cases hgone
      | true =>
        rw [trial_file, hcompiles, if_pos rfl] at hnow
        exact ⟨k, Nat.lt_succ_self k, _, now, hcompiles, hwas, hinclude, hnow, hgone⟩

theorem justified (compiles : ℕ → Bool) (file : List Line) : Justified compiles file := by
  intro n line now hn hline hnow hgone
  obtain ⟨k, hk, was, tried, hcompiles, hwas, hinclude, htried, hout⟩ :=
    exists_trial_without hn hline hnow hgone
  have ht : (checkFile compiles file).trials[k]? =
      some ⟨taken (trials compiles file k) (k + 2),
        comment (taken (trials compiles file k) (k + 2)) (trials compiles file k).file,
        compiles (k + 2)⟩ := by
    rw [checkFile, trials_trials, List.getElem?_map, List.getElem?_range hk]
    rfl
  exact ⟨k, _, was, tried, ht, hcompiles, hwas, hinclude, htried, hout⟩

/-! ### Trials spent on a new line -/

/-- The trial with number `i` takes a line of the original file, from the second on,
that no trial has taken before. -/
def TakesNew (file : List Line) (s : Search) (i : ℕ) : Prop :=
  taken s i ∈ (includes file).tail ∧ ∀ t ∈ s.trials, t.line ≠ taken s i

theorem covered_iff_takesNew (compiles : ℕ → Bool) {file : List Line} (hnd : (includes file).Nodup) :
    Covered compiles file ↔
      ∀ k, k + 2 ≤ (includes file).length → TakesNew file (trials compiles file k) (k + 2) := by
  have hcount := all_taken_iff (fun j => taken (trials compiles file j) (j + 2)) hnd.tail
  rw [List.length_tail] at hcount
  unfold Covered TakesNew
  simp only [checkFile, mem_trials_line]
  rw [hcount]
  refine forall_congr' fun k => ?_
  rw [show k < (includes file).length - 1 ↔ k + 2 ≤ (includes file).length by omega]
  refine imp_congr_right fun _ => and_congr_right fun _ => ?_
  constructor
  · intro h t ht heq
    obtain ⟨j, hj, hjline⟩ := mem_trials_line.mp ⟨t, ht, heq⟩
    exact h j hj hjline
  · intro h j hj hjline
    obtain ⟨t, ht, heq⟩ := mem_trials_line.mpr ⟨j, hj, hjline⟩
    exact h t ht heq

/-! ### Trials that leave the other include lines alone -/

/-- No other include line of the file fits the line taken, and the edits make no
include line out of another one. -/
structure Clean (s : Search) (i : ℕ) : Prop where
  others : ∀ other ∈ includes s.file, other ≠ taken s i → fits (pattern (taken s i)) other = false
  plain : ∀ now ∈ s.file, isInclude now = false →
    isInclude (uncommentLine (taken s i) (commentLine (taken s i) now)) = false

theorem includes_cons_pos {line : Line} (file : List Line) (h : isInclude line = true) :
    includes (line :: file) = line :: includes file :=
  List.filter_cons_of_pos h

theorem includes_cons_neg {line : Line} (file : List Line) (h : isInclude line = false) :
    includes (line :: file) = includes file :=
  List.filter_cons_of_neg (by simp [h])

/- An edit that keeps the include lines and makes none. -/
theorem includes_map {edit : Line → Line} {file : List Line}
    (hkeep : ∀ now ∈ includes file, edit now = now)
    (hplain : ∀ now ∈ file, isInclude now = false → isInclude (edit now) = false) :
    includes (file.map edit) = includes file := by
  induction file with
  | nil => rfl
  | cons now file ih =>
    rw [List.forall_mem_cons] at hplain
    rw [List.map_cons]
    cases hinclude : isInclude now with
    | false =>
      rw [includes_cons_neg _ hinclude] at hkeep ⊢
      rw [includes_cons_neg _ (hplain.1 hinclude), ih hkeep hplain.2]
    | true =>
      rw [includes_cons_pos _ hinclude, List.forall_mem_cons] at hkeep
      rw [hkeep.1, includes_cons_pos _ hinclude, includes_cons_pos _ hinclude, ih hkeep.2 hplain.2]

theorem includes_comment {line : Line} {file : List Line} (hnd : (includes file).Nodup)
    (hothers : ∀ other ∈ includes file, other ≠ line → fits (pattern line) other = false) :
    includes (file.map (commentLine line)) = without line (includes file) := by
  induction file with
  | nil => rfl
  | cons now file ih =>
    rw [List.map_cons]
    cases hinclude : isInclude now with
    | false =>
      rw [includes_cons_neg _ hinclude] at hnd hothers ⊢
      rw [includes_cons_neg _ (commentLine_not_include line hinclude), ih hnd hothers]
    | true =>
      rw [includes_cons_pos _ hinclude] at hnd hothers ⊢
      rw [List.forall_mem_cons] at hothers
      obtain ⟨hnot, hnd⟩ := List.nodup_cons.mp hnd
      by_cases heq : now = line
      · subst heq
        rw [commentLine_self, includes_cons_neg _ (not_include_slashes now), without_cons_self]
        -- the line does not occur again
        refine includes_map (fun other hother => ?_) fun now' _ => commentLine_not_include now
        exact commentLine_of_not_fits (hothers.2 other hother (ne_of_mem_of_not_mem hother hnot))
      · rw [commentLine_of_not_fits (hothers.1 heq), includes_cons_pos _ hinclude, ih hnd hothers.2,
          without_cons_of_ne heq]

theorem includes_trial {compiles : ℕ → Bool} {s : Search} {i : ℕ} {line : Line}
    (hnd : (includes s.file).Nodup) (hpick : pick i (includes s.file) = some line)
    (hclean : Clean s i) :
    includes (trial compiles s i).file =
      if compiles i then without line (includes s.file) else includes s.file := by
  have hline := (isInclude_of_pick hpick).2
  have htaken : taken s i = line := by rw [taken, hpick, Option.getD_some]
  obtain ⟨hothers, hplain⟩ := hclean
  rw [htaken] at hothers hplain
  rw [trial_file, htaken, comment_eq hline]
  split
  · exact includes_comment hnd hothers
  · rw [uncomment, List.map_map]
    refine includes_map (fun now hnow => ?_) hplain
    by_cases heq : now = line
    · subst heq
      exact (congrArg _ (commentLine_self now)).trans (uncommentLine_self now)
    · have hfits := hothers now hnow heq
      exact (congrArg _ (commentLine_of_not_fits hfits)).trans (uncommentLine_of_not_fits hfits)

section Run

variable {compiles : ℕ → Bool} {file : List Line} (hnd : (includes file).Nodup)

include hnd in
/- As long as the trials are clean, the search is a sweep over the include lines. -/
theorem includes_trials {k : ℕ} (hk : k < (includes file).length)
    (hclean : ∀ j < k, Clean (trials compiles file j) (j + 2)) :
    includes (trials compiles file k).file = before compiles (includes file) k := by
  induction k with
  | zero => rfl
  | succ k ih =>
    have hbefore := ih (by omega) fun j hj => hclean j (by omega)
    have hnd' : (includes (trials compiles file k).file).Nodup := by
      rw [hbefore]
      exact hnd.sublist (before_sublist compiles _ k)
    obtain ⟨line, hline, hpicked⟩ := exists_picked compiles (show k < (includes file).length by omega)
    have hpick : pick (k + 2) (includes (trials compiles file k).file) = some line := by
      rw [hbefore]
      exact hpicked
    rw [trials_succ, includes_trial hnd' hpick (hclean k (Nat.lt_succ_self k)), hbefore,
      before_succ hpicked]

include hnd in
theorem covered_iff_outcomes
    (hclean : ∀ k, k + 2 ≤ (includes file).length → Clean (trials compiles file k) (k + 2)) :
    Covered compiles file ↔
      ∀ i j, 2 ≤ i → i < j → j < (includes file).length → compiles i = true → compiles j = true := by
  have htaken : ∀ k, k + 2 ≤ (includes file).length →
      picked compiles (includes file) k = some (taken (trials compiles file k) (k + 2)) := by
    intro k hk
    obtain ⟨line, -, hpicked⟩ := exists_picked compiles (show k < (includes file).length by omega)
    rw [taken, includes_trials hnd (by omega) fun j hj => hclean j (by omega)]
    rw [picked] at hpicked ⊢
    rw [hpicked, Option.getD_some]
  rw [← all_picked_iff hnd]
  unfold Covered
  simp only [checkFile, mem_trials_line]
  refine forall₂_congr fun line _ => exists_congr fun k => ?_
  rw [show k < (includes file).length - 1 ↔ k + 2 ≤ (includes file).length by omega]
  refine and_congr_right fun hk => ?_
  rw [htaken k hk, Option.some.injEq]

include hnd in
/- Include lines that are apart stay so, and every trial is clean. -/
theorem clean_of_apart (hapart : Apart (includes file)) {k : ℕ} (hk : k + 2 ≤ (includes file).length) :
    Clean (trials compiles file k) (k + 2) := by
  induction k using Nat.strong_induction_on with
  | _ k ih =>
    have hbefore := includes_trials hnd (k := k) (by omega) fun j hj => ih j hj (by omega)
    have hsub := before_sublist compiles (includes file) k
    obtain ⟨line, hline, hpicked⟩ := exists_picked compiles (show k < (includes file).length by omega)
    have htaken : taken (trials compiles file k) (k + 2) = line := by
      rw [picked] at hpicked
      rw [taken, hbefore, hpicked, Option.getD_some]
    have hmem := hsub.subset hline
    have hinclude : isInclude line = true := (List.mem_filter.mp hmem).2
    refine ⟨?_, ?_⟩ <;> rw [htaken]
    · intro other hother hne
      rw [hbefore] at hother
      exact hapart.others line hmem other (hsub.subset hother) (Ne.symm hne)
    · intro now _
      exact uncommentLine_not_include hinclude (hapart.ends line hmem)

end Run

def includeLine (name : Char) : Line := directive ++ [' ', '<', name, '.', 'h', '>']

def fourIncludes : CFile where
  lines := [includeLine 'a', includeLine 'b', includeLine 'c', includeLine 'd']
  distinct := by decide
  plain := by
    intro line hline c hc
    have hall : [includeLine 'a', includeLine 'b', includeLine 'c', includeLine 'd'].all
        (fun line => line.all (· ∉ special)) = true := by decide
    have hlines := List.all_eq_true.mp hall line (List.mem_of_mem_filter hline)
    exact of_decide_eq_true (List.all_eq_true.mp hlines c hc)

/- Lines that are not apart: the dot of the second line fits the third one, which
   comes back with the text of the second and is itself never tried. -/
example :
    (checkFile (fun _ => false) [includeLine 'a', includeLine 'b',
      directive ++ [' ', '<', 'b', 'x', 'h', '>'], includeLine 'd']).trials.map Trial.line =
      [includeLine 'b', includeLine 'b', includeLine 'd'] := by decide

end KeepalivedDevel.TestIt
