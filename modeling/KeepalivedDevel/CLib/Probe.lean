import Mathlib.Tactic.Common
import Mathlib.Data.Nat.Notation
import Mathlib.Data.Int.Notation
import Mathlib.Data.List.Basic

/-!
# Adaptive searches in a text

A search that starts at some place of a text and looks at bytes around it, each
look depending on what the looks before it have seen. On a part of the text it
either comes to a decision, which is then that of the whole text, or it gets to
the end of the part and would need to see more.
-/

namespace CLib

inductive Probe where
  | accept
  | reject
  | look (d : ℤ) (next : Option UInt8 → Probe)

def byteAt (s : List UInt8) (j : ℤ) : Option UInt8 := if j < 0 then none else s[j.toNat]?

/- Whether the search started at place `i` succeeds. -/
def Probe.matches (s : List UInt8) (i : ℕ) : Probe → Bool
  | accept => true
  | reject => false
  | look d next => (next (byteAt s (i + d))).matches s i

inductive Verdict where
  | full
  | fail
  | reachesEnd
  deriving Repr, DecidableEq

/-- What the search started at place `i` of a part of a text comes to. -/
def Probe.verdict (s : List UInt8) (i : ℕ) : Probe → Verdict
  | accept => .full
  | reject => .fail
  | look d next =>
    if (s.length : ℤ) ≤ i + d then .reachesEnd else (next (byteAt s (i + d))).verdict s i

/- No look goes further back than `k` bytes. -/
def Probe.LooksBack (k : ℕ) : Probe → Prop
  | accept => True
  | reject => True
  | look d next => -(k : ℤ) ≤ d ∧ ∀ c, (next c).LooksBack k

theorem byteAt_window (text : List UInt8) (a len : ℕ) {j : ℤ} (hlow : a = 0 ∨ 0 ≤ j)
    (hhigh : j < len) : byteAt ((text.drop a).take len) j = byteAt text (a + j) := by
  unfold byteAt
  by_cases hj : j < 0
  · rw [if_pos hj, if_pos (by omega)]
  · rw [if_neg hj, if_neg (by omega), List.getElem?_take, if_pos (by omega), List.getElem?_drop]
    congr 1
    omega

/-- Inside a part of the text, with `k` bytes before the starting place or none
in the whole text, a decision is that of the whole text. -/
theorem Probe.matches_of_verdict {k : ℕ} (p : Probe) (hp : p.LooksBack k) (text : List UInt8)
    (a len i : ℕ) (hlen : a + len ≤ text.length) (hi : a = 0 ∨ k ≤ i) :
    (p.verdict ((text.drop a).take len) i = .full → p.matches text (a + i) = true) ∧
      (p.verdict ((text.drop a).take len) i = .fail → p.matches text (a + i) = false) := by
  have hwindow : ((text.drop a).take len).length = len := by
    rw [List.length_take, List.length_drop]
    omega
  induction p with
  | accept =>
    refine ⟨fun _ => rfl, fun h => ?_⟩
    cases h
  | reject =>
    refine ⟨fun h => ?_, fun _ => rfl⟩
    cases h
  | look d next ih =>
    obtain ⟨hd, hnext⟩ := hp
    rw [verdict, hwindow, Probe.matches]
    by_cases hend : (len : ℤ) ≤ i + d
    · rw [if_pos hend]
      exact ⟨by simp, by simp⟩
    · have hbyte := byteAt_window text a len (j := i + d) (by omega) (by omega)
      rw [if_neg hend, hbyte]
      have hplace : ((a + i : ℕ) : ℤ) + d = a + (i + d) := by omega
      rw [hplace]
      exact ih _ (hnext _)

end CLib
