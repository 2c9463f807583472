import Mathlib.Tactic.Common

/-!
# Arithmetic on `char`

An operand of type `char` is promoted to `int`, with or without its sign, and
the result is cut down to 8 bits when it is assigned. Sums, differences, left
shifts and bitwise or give the same byte either way.
-/

namespace CLib

inductive CharType where
  | signed
  | unsigned
  deriving Repr, DecidableEq

def promote : CharType → UInt8 → BitVec 32
  | .signed, c => c.toBitVec.signExtend 32
  | .unsigned, c => c.toBitVec.setWidth 32

def toChar (w : BitVec 32) : UInt8 := ⟨w.setWidth 8⟩

theorem toChar_toNat (w : BitVec 32) : (toChar w).toNat = w.toNat % 256 :=
  BitVec.toNat_setWidth ..

theorem toChar_promote (t : CharType) (c : UInt8) : toChar (promote t c) = c := by
  apply UInt8.toBitVec_inj.mp
  cases t with
  | signed =>
    apply BitVec.eq_of_getLsbD_eq
    intro i hi
    have h32 : i < 32 := by omega
    show ((c.toBitVec.signExtend 32).setWidth 8).getLsbD i = _
    simp only [BitVec.getLsbD_setWidth, BitVec.getLsbD_signExtend, hi, h32, decide_true,
      Bool.true_and, ite_true]
  | unsigned =>
    show (c.toBitVec.setWidth 32).setWidth 8 = c.toBitVec
    rw [BitVec.setWidth_setWidth_of_le _ (by decide), BitVec.setWidth_eq]

theorem toChar_add (v w : BitVec 32) : toChar (v + w) = toChar v + toChar w := by
  apply UInt8.toNat_inj.mp
  simp only [UInt8.toNat_add, toChar_toNat, BitVec.toNat_add]
  omega

theorem toChar_sub (v w : BitVec 32) : toChar (v - w) = toChar v - toChar w := by
  apply UInt8.toNat_inj.mp
  simp only [UInt8.toNat_sub, toChar_toNat, BitVec.toNat_sub]
  have hw := w.isLt
  omega

theorem toChar_or (v w : BitVec 32) : toChar (v ||| w) = toChar v ||| toChar w :=
  UInt8.toBitVec_inj.mp (BitVec.setWidth_or (x := v) (y := w))

theorem toChar_shiftLeft (w : BitVec 32) {k : UInt8} (hk : k.toNat < 8) :
    toChar (w <<< k.toNat) = toChar w <<< k := by
  apply UInt8.toBitVec_inj.mp
  show (w <<< k.toNat).setWidth 8 = w.setWidth 8 <<< (k.toBitVec % 8)
  have hmod : (k.toBitVec % 8).toNat = k.toNat := Nat.mod_eq_of_lt hk
  rw [BitVec.setWidth_shiftLeft_of_le (by decide), BitVec.shiftLeft_eq', hmod]

end CLib
