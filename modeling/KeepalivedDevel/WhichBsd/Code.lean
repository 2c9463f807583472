import KeepalivedDevel.FindPath.Resolve
import Mathlib.Data.List.DropRight

/-!
# `which` and `whereis` of `code_test/which-bsd.c`

Every program is looked for in the components of PATH, of which a copy is cut up by
`strsep`. Slashes at the end of a component are removed in place, from the last one
back to the first byte that is no slash: for a component of nothing but slashes this
is the byte in front of it.
-/

namespace KeepalivedDevel.WhichBsd
open CLib FindPath

/-- What `stat` and `access(name, X_OK)` say of each name. -/
structure Files extends FileSystem where
  access : List UInt8 → Bool

def Files.found (files : Files) (name : List UInt8) : Bool :=
  (files.stat name).any sIsreg && files.access name

inductive Mode where
  | which
  | whereis
  deriving DecidableEq

inductive Warning where
  | commandNotFound
  | nameTooLong (dir : List UInt8)
  deriving DecidableEq

/-- The names printed, the warning and the return value. -/
structure Result where
  printed : List (List UInt8)
  warning : Option Warning
  rval : Bool
  deriving DecidableEq

/-! ### One component (`which-bsd.c:134-139`) -/

/- `while (p[plen-1] == '/')`, from the given `plen` on. In front of the first component is no
byte of the copy, and in front of the others there is the NUL that `strsep` has written. -/
def strip (first : Bool) (p : List UInt8) : ℕ → Option ℕ
  | 0 => if first then none else some 0
  | plen + 1 => if p.getD plen 0 = slash then strip first p plen else some (plen + 1)

def component (first : Bool) (p : List UInt8) : Option (List UInt8) :=
  if p = [] then some [46] else (strip first p p.length).map p.take

/-! ### `findprog` (`which-bsd.c:108-164`) -/

structure Search where
  printed : List (List UInt8)
  rval : Bool

def Search.done (mode : Mode) (s : Search) : Result :=
  ⟨s.printed, if !s.rval && mode ≠ .whereis then some .commandNotFound else none, s.rval⟩

/-- The loop over the results of `strsep`. None is a read in front of the copy of PATH. -/
def search (files : Files) (prog : List UInt8) (mode : Mode) (allmatches : Bool) (first : Bool)
    (s : Search) : List (List UInt8) → Option Result
  | [] => some (s.done mode)
  | p :: ps =>
    match component first p with
    | none => none
    | some dir =>
      if dir.length + 1 + prog.length ≥ pathMax then
        some ⟨s.printed, some (.nameTooLong dir), false⟩
      else if files.found (dir ++ slash :: prog) then
        if !allmatches then some ⟨s.printed ++ [dir ++ slash :: prog], none, true⟩
        else search files prog mode allmatches false ⟨s.printed ++ [dir ++ slash :: prog], true⟩ ps
      else search files prog mode allmatches false s ps

def findprog (files : Files) (prog path : List UInt8) (mode : Mode) (allmatches : Bool) :
    Option Result :=
  if slash ∈ prog then
    if files.found prog then some ⟨[prog], none, true⟩ else some ⟨[], some .commandNotFound, false⟩
  else search files prog mode allmatches true ⟨[], false⟩ (path.splitOn colon)

/-! ### The whole program (`which-bsd.c:69-105`) -/

/-- What is printed for each program, and the exit status. -/
structure Report where
  printed : List (List (List UInt8))
  status : ℕ
  deriving DecidableEq

def exitStatus (notfound argc : ℕ) : ℕ :=
  if notfound = 0 then 0 else if notfound = argc then 2 else 1

def which (files : Files) (path : List UInt8) (mode : Mode) (allmatches : Bool)
    (progs : List (List UInt8)) : Option Report := do
  -- `usage` exits with 1.
  if progs = [] then return ⟨[], 1⟩
  let results ← progs.mapM fun prog => findprog files prog path mode allmatches
  let notfound := results.countP fun r => !r.rval
  return ⟨results.map Result.printed, exitStatus notfound progs.length⟩

end KeepalivedDevel.WhichBsd
