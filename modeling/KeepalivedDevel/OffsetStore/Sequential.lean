import KeepalivedDevel.OffsetStore.Code
import Mathlib.Data.List.Induction

/-!
# The two stores used one call after the other

Both stores represent a function from instances to offsets, zero everywhere at
the beginning. A call changes this function at one place, whichever store it is
made on, and tells whether it did.
-/

namespace KeepalivedDevel.OffsetStore
open PyLib CLib

def effective (file : Option (List UInt8)) (inst : ℤ) : ℤ :=
  ((loadOffsets file).get (strKey inst)).getD 0

def TrackFile.effective (files : Files) (inst : ℤ) : ℤ := (found files inst).getD 0

structure Call where
  inst : ℤ
  offset : ℤ
  deriving DecidableEq

structure Stores where
  file : Option (List UInt8)
  files : TrackFile.Files

def Stores.empty : Stores := ⟨none, fun _ => none⟩

def Stores.update (s : Stores) (c : Call) : Stores where
  file := (updateOffset s.file c.inst c.offset).1
  files := (TrackFile.updateOffset s.files c.inst c.offset).1

/-- The offset last requested for each instance. -/
def requested (calls : List Call) : ℤ → ℤ :=
  calls.foldl (fun offsets c => Function.update offsets c.inst c.offset) fun _ => 0

/-! ### One call -/

/-- The branch on the code is a branch on the offset found, where none is zero. -/
theorem ite_toReturn {α : Type} (found : Option ℤ) (offset : ℤ) (change keep : ℕ → α) :
    (if toReturn found offset = 1 then change (toReturn found offset)
      else keep (toReturn found offset)) =
      if found.getD 0 = offset then keep 0 else change 1 := by
  have hcode : toReturn found offset = if found.getD 0 = offset then 0 else 1 := by
    cases found with
    | none => simp only [toReturn, Option.getD_none, eq_comm]
    | some cur => rfl
  rw [hcode]
  by_cases h : found.getD 0 = offset
  · rw [if_pos h, if_pos h, if_neg (by decide)]
  · rw [if_neg h, if_neg h, if_pos rfl]

theorem updateOffset_eq (file : Option (List UInt8)) (inst offset : ℤ) :
    updateOffset file inst offset =
      if effective file inst = offset then (file, 0)
      else (some (dump ((loadOffsets file).set (strKey inst) offset)), 1) :=
  ite_toReturn _ _ (fun code => (some (dump ((loadOffsets file).set (strKey inst) offset)), code))
    fun code => (file, code)

theorem TrackFile.updateOffset_eq (files : Files) (inst offset : ℤ) :
    updateOffset files inst offset =
      if effective files inst = offset then (files, 0)
      else (Function.update files (decimalText inst) (some (decimalText offset)), 1) :=
  ite_toReturn _ _ (fun code => (Function.update files (decimalText inst) (some (decimalText offset)), code))
    fun code => (files, code)

theorem loadOffsets_dump (d : Dict Key ℤ) : loadOffsets (some (dump d)) = d := by
  simp [loadOffsets, load_dump]

theorem effective_dump_set (d : Dict Key ℤ) (inst offset : ℤ) :
    effective (some (dump (d.set (strKey inst) offset))) =
      Function.update (fun j => (d.get (strKey j)).getD 0) inst offset := by
  funext j
  rw [effective, loadOffsets_dump, Dict.get_set, Function.update_apply]
  simp only [strKey_injective.eq_iff, eq_comm]
  split <;> rfl

theorem TrackFile.effective_write (files : Files) (inst offset : ℤ) :
    effective (Function.update files (decimalText inst) (some (decimalText offset))) =
      Function.update (effective files) inst offset := by
  funext j
  rw [effective, found, Function.update_apply, Function.update_apply]
  by_cases hj : j = inst
  · simp [hj, int_decimalText]
  · simp only [decimalText_injective.eq_iff, hj, if_false]
    rfl

theorem updateOffset_effective (file : Option (List UInt8)) (inst offset : ℤ) :
    effective (updateOffset file inst offset).1 = Function.update (effective file) inst offset := by
  rw [updateOffset_eq]
  split
  · rename_i h
    rw [← h, Function.update_eq_self]
  · exact effective_dump_set _ _ _

theorem TrackFile.updateOffset_effective (files : Files) (inst offset : ℤ) :
    effective (updateOffset files inst offset).1 =
      Function.update (effective files) inst offset := by
  rw [updateOffset_eq]
  split
  · rename_i h
    rw [← h, Function.update_eq_self]
  · exact effective_write _ _ _

/- A reader makes the same of a missing file or entry as an update does. -/
theorem getVrrpOffset_eq (file : Option (List UInt8)) (inst : ℤ) :
    getVrrpOffset file inst = effective file inst := by
  rw [getVrrpOffset, effective, loadOffsets]
  cases file.bind load with
  | none => rfl
  | some offsets =>
    simp only [Option.bind_some, Option.getD_some]
    cases offsets.get (strKey inst) <;> rfl

/-! ### A sequence of calls -/

theorem run_effective (calls : List Call) :
    effective (calls.foldl Stores.update Stores.empty).file = requested calls ∧
      TrackFile.effective (calls.foldl Stores.update Stores.empty).files = requested calls := by
  induction calls using List.reverseRecOn with
  | nil => exact ⟨rfl, rfl⟩
  | append_singleton calls c ih =>
    simp only [requested, List.foldl_append, List.foldl_cons, List.foldl_nil] at ih ⊢
    rw [← ih.1]
    refine ⟨updateOffset_effective _ _ _, ?_⟩
    rw [ih.1, ← ih.2]
    exact TrackFile.updateOffset_effective _ _ _

/-- After any calls both stores, and a reader of the first, have the offset last
requested for every instance, and the next call returns the same code on both: 1
exactly if it changes the offset of its instance. -/
theorem stores_alike (calls : List Call) (c : Call) :
    let s := calls.foldl Stores.update Stores.empty
    (∀ i, effective s.file i = requested calls i ∧ TrackFile.effective s.files i = requested calls i ∧
      getVrrpOffset s.file i = requested calls i) ∧
    (updateOffset s.file c.inst c.offset).2 = (TrackFile.updateOffset s.files c.inst c.offset).2 ∧
    ((updateOffset s.file c.inst c.offset).2 = 1 ↔
      effective (s.update c).file c.inst ≠ effective s.file c.inst) ∧
    ((TrackFile.updateOffset s.files c.inst c.offset).2 = 1 ↔
      TrackFile.effective (s.update c).files c.inst ≠ TrackFile.effective s.files c.inst) := by
  intro s
  obtain ⟨hfile, hfiles⟩ := run_effective calls
  have hafter : effective (s.update c).file c.inst = c.offset := by
    rw [Stores.update, updateOffset_effective, Function.update_self]
  have hafterFiles : TrackFile.effective (s.update c).files c.inst = c.offset := by
    rw [Stores.update, TrackFile.updateOffset_effective, Function.update_self]
  have hcode : (if requested calls c.inst = c.offset then 0 else 1) = 1 ↔
      c.offset ≠ requested calls c.inst := by
    split <;> simp_all [eq_comm]
  have hcodeFile : (updateOffset s.file c.inst c.offset).2 =
      if requested calls c.inst = c.offset then 0 else 1 := by
    rw [updateOffset_eq, hfile]
    split <;> rfl
  have hcodeFiles : (TrackFile.updateOffset s.files c.inst c.offset).2 =
      if requested calls c.inst = c.offset then 0 else 1 := by
    rw [TrackFile.updateOffset_eq, hfiles]
    split <;> rfl
  rw [hafter, hafterFiles, hcodeFile, hcodeFiles, hfile, hfiles]
  refine ⟨fun i => ⟨rfl, rfl, ?_⟩, rfl, hcode, hcode⟩
  rw [getVrrpOffset_eq, hfile]

end KeepalivedDevel.OffsetStore
