import KeepalivedDevel.CLib.Buffer
import KeepalivedDevel.CLib.Fgets
import KeepalivedDevel.CLib.While

/-!
# remove_checkers

`remove_checkers.c` copies a configuration from its input to its output without
the blocks of the checkers TCP_CHECK and HTTP_GET. It keeps no more than a flag
and the number of open braces, and looks for one brace of each kind in a line.
-/

namespace KeepalivedDevel.RemoveCheckers
open CLib CLib.While

/- "TCP_CHECK" and "HTTP_GET". -/
def tcpCheck : List UInt8 := [84, 67, 80, 95, 67, 72, 69, 67, 75]
def httpGet : List UInt8 := [72, 84, 84, 80, 95, 71, 69, 84]

/- `strstr(buf, word)`. -/
def strstr (buf word : List UInt8) : Bool := (cut word buf).isSome

def namesChecker (buf : List UInt8) : Bool := strstr buf tcpCheck || strstr buf httpGet

/-- `in_checker`, `depth` and what has been printed. -/
structure Filter where
  inChecker : Bool
  depth : UInt32
  output : List UInt8
  deriving DecidableEq

namespace Filter

def start : Filter := ⟨false, 0, []⟩

/- The lines of the block for `in_checker`: the braces are 123 and 125. -/
def braces (f : Filter) (buf : List UInt8) : Filter :=
  let f := if 123 ∈ buf then { f with depth := f.depth + 1 } else f
  if 125 ∈ buf then
    let f := { f with depth := f.depth - 1 }
    if f.depth = 0 then { f with inChecker := false } else f
  else f

/-- One pass of the loop, with the string that `fgets` has read. -/
def line (f : Filter) (buf : List UInt8) : Filter :=
  let f := if !f.inChecker && namesChecker buf then { f with inChecker := true } else f
  if f.inChecker then f.braces buf else { f with output := f.output ++ buf }

end Filter

/-- The program between two calls of `fgets`. -/
structure State where
  input : List UInt8
  filter : Filter

def body (s : State) : Pass State (List UInt8) :=
  match fgets 256 s.input with
  | none => .leave s.filter.output
  | some (buf, input) => .again ⟨input, s.filter.line (cstr buf)⟩

theorem body_decreases : Decreases body fun s => s.input.length := by
  intro s t h
  unfold body at h
  split at h
  · cases h
  · next hread =>
    obtain rfl := Pass.again.inj h
    exact length_fgets_rest (by decide) hread

def removeCheckers (input : List UInt8) : List UInt8 :=
  While.run body (fun s => s.input.length) body_decreases ⟨input, .start⟩

/-! ### Whole lines -/

/-- A line that `fgets` reads as a whole. -/
structure Line where
  bytes : List UInt8
  noNewline : 10 ∉ bytes
  noNul : 0 ∉ bytes
  short : bytes.length ≤ 254

def Line.text (l : Line) : List UInt8 := l.bytes ++ [10]

/- A configuration file with the given lines. -/
def file (lines : List Line) : List UInt8 := unlines 10 (lines.map Line.bytes)

def Filter.lines (f : Filter) (lines : List Line) : Filter := lines.foldl (fun f l => f.line l.text) f

theorem file_cons (l : Line) (lines : List Line) : file (l :: lines) = l.bytes ++ 10 :: file lines :=
  unlines_cons ..

theorem file_append (ls ms : List Line) : file (ls ++ ms) = file ls ++ file ms := by
  simp [file, unlines]

theorem cstr_text (l : Line) : cstr l.text = l.text := by
  unfold Line.text
  rw [cstr_append l.noNul]
  rfl

theorem run_lines (lines : List Line) (f : Filter) :
    While.run body (fun s => s.input.length) body_decreases ⟨file lines, f⟩ = (f.lines lines).output := by
  induction lines generalizing f with
  | nil => exact run_leave body_decreases rfl
  | cons l lines ih =>
    have hshort := l.short
    have hread : fgets 256 (l.bytes ++ 10 :: file lines) = some (l.bytes ++ [10], file lines) :=
      fgets_line l.noNewline (by omega) _
    have hbody : body ⟨file (l :: lines), f⟩ = .again ⟨file lines, f.line l.text⟩ := by
      simp only [body, file_cons, hread]
      rw [show l.bytes ++ [10] = l.text from rfl, cstr_text]
    rw [run_again body_decreases hbody, ih]
    rfl

/-- A file of whole lines is filtered line by line. -/
theorem removeCheckers_file (lines : List Line) :
    removeCheckers (file lines) = (Filter.start.lines lines).output :=
  run_lines lines .start

end KeepalivedDevel.RemoveCheckers
