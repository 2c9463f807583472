import KeepalivedDevel.ShLib.Sed
import KeepalivedDevel.ShLib.Sweep

/-!
# `check_file` of `general/test_it`

The script looks for include lines a C file compiles without. For `i` from 2 up to
the number of include lines it takes the `i`-th include line of the file as it is
then, comments it out, compiles, and puts it back if that fails. Both edits are
`sed` commands made from the text of the line (`test_it:17-22`), applied to every
line of the file.
-/

namespace KeepalivedDevel.TestIt

open CLib ShLib.Sed ShLib.Sweep

abbrev Line := List Char

/- The brackets of `grep`'s regular expression hold a blank and a tab. -/
def blank (c : Char) : Bool := c = ' ' || c = '\t'

def directive : Line := ['#', 'i', 'n', 'c', 'l', 'u', 'd', 'e']

/- A directive at the beginning of the line or behind blanks. -/
def isInclude (line : Line) : Bool := directive <+: line.dropWhile blank

def includes (file : List Line) : List Line := file.filter isInclude

/- A line as a regular expression: the only special character is the dot. -/
def pattern (line : Line) : List (Option Char) := line.map fun c => if c = '.' then none else some c

def slashes : Line := ['/', '/']

/- `s:$line:\/\/$line:`; `sed` refuses an empty expression. -/
def comment (line : Line) (file : List Line) : List Line :=
  if line = [] then file else file.map (substitute (pattern line) (slashes ++ line))

/- `s:\/\/$line:$line:` -/
def uncomment (line : Line) (file : List Line) : List Line :=
  file.map (substitute (pattern (slashes ++ line)) line)

/-- A trial: the line, the file that is compiled, and whether it compiles. -/
structure Trial where
  line : Line
  file : List Line
  compiled : Bool
  deriving Repr, DecidableEq

structure Search where
  file : List Line
  changed : Bool
  trials : List Trial
  deriving Repr, DecidableEq

def trial (compiles : ℕ → Bool) (s : Search) (i : ℕ) : Search :=
  let line := (pick i (includes s.file)).getD []
  let file := comment line s.file
  if compiles i then ⟨file, true, s.trials ++ [⟨line, file, true⟩]⟩
  else ⟨uncomment line file, s.changed, s.trials ++ [⟨line, file, false⟩]⟩

def trials (compiles : ℕ → Bool) (file : List Line) (k : ℕ) : Search :=
  (List.range' 2 k).foldl (trial compiles) ⟨file, false, []⟩

/- The loop over `seq 2 $num_inc`. -/
def checkFile (compiles : ℕ → Bool) (file : List Line) : Search :=
  trials compiles file ((includes file).length - 1)

/- Whether the file is copied to `new/dummy` and reported, by the outcome of the
   compilation after the loop. -/
def improved (compiles : ℕ → Bool) (compilesAtEnd : Bool) (file : List Line) : Bool :=
  compilesAtEnd && (checkFile compiles file).changed

theorem trials_succ (compiles : ℕ → Bool) (file : List Line) (k : ℕ) :
    trials compiles file (k + 1) = trial compiles (trials compiles file k) (k + 2) := by
  rw [trials, List.range'_concat, List.foldl_append, Nat.one_mul, Nat.add_comm 2 k]
  rfl

theorem trial_changed (compiles : ℕ → Bool) (s : Search) (i : ℕ) :
    (trial compiles s i).changed = (s.changed || compiles i) := by
  unfold trial
  cases compiles i with
  | false => exact (Bool.or_false _).symm
  | true => exact (Bool.or_true _).symm

/- A file is reported if a trial compiled, and the file compiles with all the lines
   that were left out. -/
theorem improved_iff (compiles : ℕ → Bool) (compilesAtEnd : Bool) (file : List Line) :
    improved compiles compilesAtEnd file = true ↔
      compilesAtEnd = true ∧ ∃ i, 2 ≤ i ∧ i ≤ (includes file).length ∧ compiles i = true := by
  have hchanged : ∀ k, (trials compiles file k).changed = true ↔
      ∃ i, 2 ≤ i ∧ i < k + 2 ∧ compiles i = true := by
    intro k
    induction k with
    | zero => exact iff_of_false Bool.false_ne_true (fun ⟨i, hi, hlt, _⟩ => by omega)
    | succ k ih =>
      rw [trials_succ, trial_changed, Bool.or_eq_true, ih]
      constructor
      · intro h
        rcases h with ⟨i, hi, hlt, hok⟩ | hok
        · exact ⟨i, hi, by omega, hok⟩
        · exact ⟨k + 2, by omega, by omega, hok⟩
      · intro ⟨i, hi, hlt, hok⟩
        rcases Nat.lt_or_ge i (k + 2) with hlt' | hge
        · exact .inl ⟨i, hi, hlt', hok⟩
        · obtain rfl : i = k + 2 := by omega
          exact .inr hok
  rw [improved, Bool.and_eq_true, checkFile, hchanged]
  refine and_congr_right fun _ => exists_congr fun i => and_congr_right fun hi => ?_
  refine and_congr_left fun _ => ?_
  omega

end KeepalivedDevel.TestIt
