import KeepalivedDevel.CLib.CString
import KeepalivedDevel.CLib.Decimal
import KeepalivedDevel.CLib.Text

/-!
# readdress and readdress_all

The shell scripts `configs/1446/readdress` and `configs/1446/readdress_all`. The
first gives every placeholder address of a configuration file an address of its
own, the second does so for all the files. A file is a text, so it has no NUL,
and its bytes are taken one by one (the C locale).
-/

namespace KeepalivedDevel.Readdress
open CLib

def newline : UInt8 := 10
def backslash : UInt8 := 92
def dot : UInt8 := 46

/- The pattern of `sed`, with its dots escaped. -/
def placeholder : List UInt8 := [49, 50, 51, 46, 49, 50, 51, 46, 49, 50, 51, 46, 49, 50, 51]

/- The pattern of the `=~` test, where a dot fits every byte. -/
def placeholderRegex : List (Option UInt8) :=
  [some 49, some 50, some 51, none, some 49, some 50, some 51, none,
    some 49, some 50, some 51, none, some 49, some 50, some 51]

/-! ### Addresses -/

/-- The address `$a.$b.$X.$Y`. -/
structure Address where
  a : ℕ
  b : ℕ
  x : ℕ
  y : ℕ
  deriving DecidableEq

def Address.text (p : Address) : List UInt8 :=
  [dot].intercalate [numeral p.a, numeral p.b, numeral p.x, numeral p.y]

/-! ### The commands of the loop -/

/-- The lines that `while read line` sees, `IFS` being empty and `-r` not given: a
backslash goes away and keeps the byte behind it, or with a newline behind it joins
two lines. What stands behind the last newline makes `read` fail and is lost. -/
def readLines (line : List UInt8) (passNext : Bool) : List UInt8 → List (List UInt8)
  | [] => []
  | c :: s =>
    if passNext then
      if c = newline then readLines line false s else readLines (line ++ [c]) false s
    else if c = backslash then readLines line true s
    else if c = newline then line :: readLines [] false s
    else readLines (line ++ [c]) false s

/- `sed -e "s/$word/$text/"`: the first occurrence only. -/
def sed (word text line : List UInt8) : List UInt8 :=
  match cut word line with
  | none => line
  | some k => k.before ++ text ++ k.after

/- Words that the builtin `echo` takes as options: a dash and letters of `neE`. -/
def echoOption : List UInt8 → Bool
  | 45 :: c :: s => (c :: s).all (· ∈ [110, 101, 69])
  | _ => false

/-- `echo "$line"`, for a single word. -/
def echo (line : List UInt8) : List UInt8 :=
  if echoOption line then
    if 110 ∈ line then [] else [newline]
  else line ++ [newline]

/-! ### The loop -/

structure Vars where
  a : ℕ
  b : ℕ
  x : ℕ
  y : ℕ
  haveIp : Bool
  deriving DecidableEq

/- The variables before the loop, with the option `-a` or without it. Its argument is four
plain numbers with dots between them, as `readdress_all` gives it. -/
def Vars.start : Option Address → Vars
  | none => ⟨10, 100, 12, 15, false⟩
  | some p => ⟨p.a, p.b, p.x, p.y, false⟩

def Vars.nextIp (v : Vars) : Address := ⟨v.a, v.b, v.x, v.y⟩

/-- One pass of the loop: the variables behind it, the line it echoes, and the
address if `sed` put it in. -/
structure Pass where
  vars : Vars
  line : List UInt8
  substituted : Option Address

def Vars.body (v : Vars) (line : List UInt8) : Pass :=
  if fits placeholderRegex line then
    { vars := { v with y := v.y + 1, haveIp := true }
      line := sed placeholder v.nextIp.text line
      substituted := (cut placeholder line).map fun _ => v.nextIp }
  else if v.haveIp then
    { vars := { v with x := v.x + 1, y := 1, haveIp := false }, line := line, substituted := none }
  else
    { vars := v, line := line, substituted := none }

def Vars.loop (v : Vars) : List (List UInt8) → List Pass
  | [] => []
  | line :: lines => v.body line :: (v.body line).vars.loop lines

structure Outcome where
  file : List UInt8
  substituted : List Address

/-- `readdress -f FILE -a ADDRESS`: the file moved back, and the addresses in it
that stand where the placeholder stood. -/
def readdress (a : Option Address) (file : CString) : Outcome :=
  let passes := (Vars.start a).loop (readLines [] false file.bytes)
  { file := passes.flatMap fun p => echo p.line
    substituted := passes.filterMap Pass.substituted }

/-! ### All files -/

def readdressFrom (w : ℕ) : List CString → List Outcome
  | [] => []
  | f :: files => readdress (some ⟨10, w, 1, 1⟩) f :: readdressFrom (w + 1) files

/- The files in the order of the three globs, each with what it holds at its turn. Their names
are plain words: `$f` is not quoted, so a name with a blank would be taken for several. -/
def readdressAll (files : List CString) : List Outcome := readdressFrom 100 files

end KeepalivedDevel.Readdress
