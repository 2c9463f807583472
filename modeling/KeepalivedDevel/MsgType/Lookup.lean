import KeepalivedDevel.CLib.SparseTable

/-!
# The ways of naming a message type

`array_switch.c` and `ipvs_array_switch.c` build the same function
`get_nl_msg_type` in several ways, selected by the preprocessor. The ways are
given here once, over the constants of a file, with the constants' values and
`min_val` taken from the system headers.
-/

namespace KeepalivedDevel.MsgType
open CLib

/- What is assumed of the headers. -/
structure Header (ν : Type) where
  val : ν → UInt32
  minVal : UInt32
  distinct : Function.Injective val
  minVal_le : ∀ x, minVal ≤ val x

/- The pointer returned: a string or null. The error is an index outside a table. -/
abbrev Result := Except ℕ (Option String)

section
variable {ν : Type} (h : Header ν)

/- A chain of comparisons or a switch, with the string of each constant. -/
def getCases (cases : List (ν × String)) (dflt : String) (type : UInt32) : Result :=
  .ok (some (((cases.map fun c => (h.val c.1, c.2)).lookup type).getD dflt))

/- `vals` as initialised by `strval` under ARRAY. -/
def arrayVals (names : List ν) (text : ν → String) : List (ℕ × String) :=
  names.map fun x => ((h.val x).toNat, text x)

def getArray (names : List ν) (text : ν → String) (dflt : String) (type : UInt32) : Result :=
  let vals := arrayVals h names text
  if type.toNat < SparseTable.size vals then do
    if (← SparseTable.read vals type.toNat).isSome then SparseTable.read vals type.toNat
    else .ok (some dflt)
  else .ok (some dflt)

/- `vals` as initialised by `strval` under ARRAY_MIN. -/
def arrayMinVals (names : List ν) (text : ν → String) : List (ℕ × String) :=
  names.map fun x => ((h.val x - h.minVal).toNat, text x)

/-- The element tested is at the offset, the element returned is not. -/
def getArrayMin (names : List ν) (text : ν → String) (dflt : String) (type : UInt32) : Result :=
  let vals := arrayMinVals h names text
  if h.minVal ≤ type ∧ (type - h.minVal).toNat < SparseTable.size vals then do
    if (← SparseTable.read vals (type - h.minVal).toNat).isSome then
      SparseTable.read vals type.toNat
    else .ok (some dflt)
  else .ok (some dflt)

/-! ### The result of each way -/

theorem val_toNat_injective : Function.Injective fun x => (h.val x).toNat := by
  intro x y he
  exact h.distinct (UInt32.toNat_inj.mp he)

theorem offset_toNat (x : ν) : (h.val x - h.minVal).toNat = (h.val x).toNat - h.minVal.toNat :=
  UInt32.toNat_sub_of_le _ _ (h.minVal_le x)

theorem offset_injective : Function.Injective fun x => (h.val x - h.minVal).toNat := by
  intro x y he
  simp only [offset_toNat] at he
  have hx := UInt32.le_iff_toNat_le.mp (h.minVal_le x)
  have hy := UInt32.le_iff_toNat_le.mp (h.minVal_le y)
  apply val_toNat_injective h
  show (h.val x).toNat = (h.val y).toNat
  omega

variable {names : List ν} {text : ν → String} (dflt : String)

theorem getCases_val {x : ν} (hx : x ∈ names) :
    getCases h (names.map fun y => (y, text y)) dflt (h.val x) = .ok (some (text x)) := by
  unfold getCases
  rw [List.map_map]
  have hl : (names.map ((fun c => (h.val c.1, c.2)) ∘ fun y => (y, text y))).lookup (h.val x) =
      some (text x) := SparseTable.lookup_map h.distinct hx
  rw [hl]
  rfl

theorem getCases_other {type : UInt32} (ht : ∀ x, h.val x ≠ type) :
    getCases h (names.map fun y => (y, text y)) dflt type = .ok (some dflt) := by
  unfold getCases
  rw [List.map_map]
  have hl : (names.map ((fun c => (h.val c.1, c.2)) ∘ fun y => (y, text y))).lookup type = none :=
    SparseTable.lookup_map_none fun x _ => ht x
  rw [hl]
  rfl

theorem getArray_val {x : ν} (hx : x ∈ names) :
    getArray h names text dflt (h.val x) = .ok (some (text x)) := by
  have hr : SparseTable.read (arrayVals h names text) (h.val x).toNat = .ok (some (text x)) :=
    SparseTable.read_map (val_toNat_injective h) hx
  have hlt : (h.val x).toNat < SparseTable.size (arrayVals h names text) :=
    SparseTable.lt_size (List.mem_map.mpr ⟨x, hx, rfl⟩)
  unfold getArray
  simp only [hr]
  rw [if_pos hlt]
  rfl

theorem getArray_other {type : UInt32} (ht : ∀ x, h.val x ≠ type) :
    getArray h names text dflt type = .ok (some dflt) := by
  have hnull : SparseTable.element (arrayVals h names text) type.toNat = none :=
    SparseTable.element_map_none fun x _ he => ht x (UInt32.toNat_inj.mp he)
  unfold getArray
  by_cases hlt : type.toNat < SparseTable.size (arrayVals h names text)
  · simp only [SparseTable.read_of_lt hlt, hnull]
    rw [if_pos hlt]
    rfl
  · exact if_neg hlt

theorem getArrayMin_val {x : ν} (hx : x ∈ names) :
    getArrayMin h names text dflt (h.val x) =
      SparseTable.read (arrayMinVals h names text) (h.val x).toNat := by
  have hr : SparseTable.read (arrayMinVals h names text) (h.val x - h.minVal).toNat =
      .ok (some (text x)) := SparseTable.read_map (offset_injective h) hx
  have hlt : (h.val x - h.minVal).toNat < SparseTable.size (arrayMinVals h names text) :=
    SparseTable.lt_size (List.mem_map.mpr ⟨x, hx, rfl⟩)
  unfold getArrayMin
  simp only [hr]
  rw [if_pos ⟨h.minVal_le x, hlt⟩]
  rfl

theorem getArrayMin_other {type : UInt32} (ht : ∀ x, h.val x ≠ type) :
    getArrayMin h names text dflt type = .ok (some dflt) := by
  unfold getArrayMin
  by_cases hc : h.minVal ≤ type ∧
      (type - h.minVal).toNat < SparseTable.size (arrayMinVals h names text)
  · have hnull : SparseTable.element (arrayMinVals h names text) (type - h.minVal).toNat = none := by
      refine SparseTable.element_map_none fun x _ he => ht x (UInt32.toNat_inj.mp ?_)
      rw [offset_toNat, UInt32.toNat_sub_of_le _ _ hc.1] at he
      have hx := UInt32.le_iff_toNat_le.mp (h.minVal_le x)
      have htype := UInt32.le_iff_toNat_le.mp hc.1
      omega
    simp only [SparseTable.read_of_lt hc.2, hnull]
    rw [if_pos hc]
    rfl
  · exact if_neg hc

/-! ### Agreement -/

theorem getArray_eq_getCases (hall : ∀ x, x ∈ names) (type : UInt32) :
    getArray h names text dflt type = getCases h (names.map fun y => (y, text y)) dflt type := by
  by_cases ht : ∃ x, h.val x = type
  · obtain ⟨x, rfl⟩ := ht
    rw [getArray_val h dflt (hall x), getCases_val h dflt (hall x)]
  · have ht : ∀ x, h.val x ≠ type := fun x hx => ht ⟨x, hx⟩
    rw [getArray_other h dflt ht, getCases_other h dflt ht]

/- The element at a constant's value, not at its offset, is the constant's string
only if the two are the same. -/
theorem read_arrayMinVals_iff (hall : ∀ x, x ∈ names) (htext : Function.Injective text) (x : ν) :
    SparseTable.read (arrayMinVals h names text) (h.val x).toNat = .ok (some (text x)) ↔
      h.minVal = 0 := by
  constructor
  · intro hr
    obtain ⟨y, -, hy, he⟩ := SparseTable.read_map_some (offset_injective h) hr
    rw [htext he, offset_toNat] at hy
    have hx := UInt32.le_iff_toNat_le.mp (h.minVal_le x)
    rw [← UInt32.toNat_inj]
    show h.minVal.toNat = 0
    omega
  · intro h0
    have hoff : (h.val x - h.minVal).toNat = (h.val x).toNat := by
      rw [offset_toNat, h0]
      rfl
    rw [← hoff]
    exact SparseTable.read_map (offset_injective h) (hall x)

theorem getArrayMin_eq_getCases_iff (hall : ∀ x, x ∈ names) (htext : Function.Injective text)
    (type : UInt32) :
    getArrayMin h names text dflt type = getCases h (names.map fun y => (y, text y)) dflt type ↔
      h.minVal = 0 ∨ ∀ x, h.val x ≠ type := by
  by_cases ht : ∃ x, h.val x = type
  · obtain ⟨x, rfl⟩ := ht
    rw [getArrayMin_val h dflt (hall x), getCases_val h dflt (hall x),
      read_arrayMinVals_iff h hall htext x]
    exact ⟨.inl, fun hor => hor.elim id fun hne => absurd rfl (hne x)⟩
  · have ht : ∀ x, h.val x ≠ type := fun x hx => ht ⟨x, hx⟩
    rw [getArrayMin_other h dflt ht, getCases_other h dflt ht]
    exact ⟨fun _ => .inr ht, fun _ => rfl⟩

end

end KeepalivedDevel.MsgType
