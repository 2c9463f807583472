import Mathlib.Tactic.Common
import Mathlib.Data.Nat.Notation

/-!
# Words in memory and on the wire

`store16` is the memory image of a `uint16_t` on a host of either byte order
and `htons` the conversion to network order. Together they always put the high
byte first.
-/

namespace CLib

inductive ByteOrder where
  | little
  | big
  deriving Repr, DecidableEq

def store16 : ByteOrder → UInt16 → List UInt8
  | .little, x => [x.toUInt8, (x >>> 8).toUInt8]
  | .big, x => [(x >>> 8).toUInt8, x.toUInt8]

def htons : ByteOrder → UInt16 → UInt16
  | .little, x => (x <<< 8) ||| (x >>> 8)
  | .big, x => x

theorem store16_htons (o : ByteOrder) (x : UInt16) :
    store16 o (htons o x) = [(x >>> 8).toUInt8, x.toUInt8] := by
  cases o with
  | big => rfl
  | little =>
    have hx := x.toNat_lt
    have hhi : ((x <<< 8) ||| (x >>> 8)).toNat = (x.toNat % 256) <<< 8 + x.toNat / 256 := by
      simp only [UInt16.toNat_or, UInt16.toNat_shiftLeft, UInt16.toNat_shiftRight,
        UInt16.reduceToNat, Nat.reduceMod, Nat.shiftRight_eq_div_pow, Nat.reducePow]
      have hs : x.toNat <<< 8 % 65536 = (x.toNat % 256) <<< 8 := by
        simp only [Nat.shiftLeft_eq]
        omega
      rw [hs, Nat.shiftLeft_add_eq_or_of_lt (by omega)]
    simp only [Nat.shiftLeft_eq, Nat.reducePow] at hhi
    have hdiv : (x.toNat % 256 * 256 + x.toNat / 256) / 256 = x.toNat % 256 := by
      rw [Nat.mul_comm, Nat.mul_add_div (by decide), Nat.div_eq_of_lt (by omega), Nat.add_zero]
    simp only [store16, htons, List.cons.injEq, and_true]
    constructor
    · apply UInt8.toNat_inj.mp
      simp only [UInt16.toNat_toUInt8, hhi, UInt16.toNat_shiftRight, UInt16.reduceToNat,
        Nat.reduceMod, Nat.shiftRight_eq_div_pow, Nat.reducePow]
      omega
    · apply UInt8.toNat_inj.mp
      simp only [UInt16.toNat_toUInt8, hhi, UInt16.toNat_shiftRight, UInt16.reduceToNat,
        Nat.reduceMod, Nat.shiftRight_eq_div_pow, Nat.reducePow, hdiv, Nat.mod_mod]

/- The values of a `uint16_t` and a `uint32_t` in memory. -/
def load16 (o : ByteOrder) (mem : ℕ → UInt8) (i : ℕ) : ℕ :=
  match o with
  | .little => (mem i).toNat + 256 * (mem (i + 1)).toNat
  | .big => 256 * (mem i).toNat + (mem (i + 1)).toNat

def load32 (o : ByteOrder) (mem : ℕ → UInt8) (i : ℕ) : ℕ :=
  match o with
  | .little => load16 o mem i + 65536 * load16 o mem (i + 2)
  | .big => 65536 * load16 o mem i + load16 o mem (i + 2)

/- The word a reader finds at an offset of a message, high byte first. -/
def be16At (m : List UInt8) (i : ℕ) : ℕ := 256 * (m.getD i 0).toNat + (m.getD (i + 1) 0).toNat

theorem be16At_append (a : List UInt8) (x : UInt16) (b : List UInt8) :
    be16At (a ++ ((x >>> 8).toUInt8 :: x.toUInt8 :: b)) a.length = x.toNat := by
  have hx := x.toNat_lt
  have h0 : (a ++ ((x >>> 8).toUInt8 :: x.toUInt8 :: b)).getD a.length 0 = (x >>> 8).toUInt8 := by
    simp
  have h1 : (a ++ ((x >>> 8).toUInt8 :: x.toUInt8 :: b)).getD (a.length + 1) 0 = x.toUInt8 := by
    simp
  unfold be16At
  rw [h0, h1]
  simp only [UInt16.toNat_toUInt8, UInt16.toNat_shiftRight, UInt16.reduceToNat, Nat.reduceMod,
    Nat.shiftRight_eq_div_pow, Nat.reducePow]
  omega

end CLib
