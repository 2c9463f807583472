import KeepalivedDevel.PyLib.Json
import Mathlib.Logic.Function.Basic

/-!
# The stores of VRRP priority offsets

`configs/679/isolate` keeps the offsets of all instances in one JSON file, which
`get_vrrp_offset` reads; `isolate.track_file` keeps a file for each instance. A
file is its bytes, or none if it does not exist. Instances are named by integers.
-/

namespace KeepalivedDevel.OffsetStore
open PyLib CLib

/- The comparison both scripts make: the offset found, if there is one, with the
offset asked for. A missing one counts as zero. -/
def toReturn (found : Option ℤ) (offset : ℤ) : ℕ :=
  match found with
  | some cur => if cur = offset then 0 else 1
  | none => if offset = 0 then 0 else 1

/-! ### isolate -/

/- Every failure to open or to parse the file gives an empty dictionary. -/
def loadOffsets (file : Option (List UInt8)) : Dict Key ℤ := (file.bind load).getD Dict.empty

def updateOffset (file : Option (List UInt8)) (inst offset : ℤ) : Option (List UInt8) × ℕ :=
  let offsetJson := loadOffsets file
  let changed := toReturn (offsetJson.get (strKey inst)) offset
  let offsetJson := offsetJson.set (strKey inst) offset
  if changed = 1 then (some (dump offsetJson), changed) else (file, changed)

/-! ### isolate.track_file -/

namespace TrackFile

/-- The files of the directory by their names. -/
abbrev Files := List UInt8 → Option (List UInt8)

/- `int(offset_cur)`, where `offset_cur` is the number 0 without a file. -/
def found (files : Files) (inst : ℤ) : Option ℤ :=
  match files (decimalText inst) with
  | some text => int text
  | none => some 0

def updateOffset (files : Files) (inst offset : ℤ) : Files × ℕ :=
  let changed := toReturn (found files inst) offset
  if changed = 1 then (Function.update files (decimalText inst) (some (decimalText offset)), changed)
  else (files, changed)

end TrackFile

/-! ### get_vrrp_offset -/

def getVrrpOffset (file : Option (List UInt8)) (inst : ℤ) : ℤ :=
  match (file.bind load).bind fun offsets => offsets.get (strKey inst) with
  | some offset => offset
  | none => 0

end KeepalivedDevel.OffsetStore
