import Mathlib.Tactic.Common
import Mathlib.Data.Nat.Notation
import Mathlib.Data.List.Basic
import Mathlib.Algebra.Group.Nat.Defs

/-!
# Streams numbered by their sender

A sender emits events under keys and numbers the events of each key from zero
in the order it emits them; some of the events reach the receiver and the rest
are lost. A history is kept with the most recent event first. What a receiver
can say about losses is determined by the number of the last event it received.
-/

namespace CLib.Numbered

structure Emission (κ α : Type) where
  key : κ
  payload : α
  received : Bool
  deriving Repr, DecidableEq

variable {κ α : Type} [DecidableEq κ]

/- How many events of a key have been emitted: the number of the next one. -/
def emitted (k : κ) (past : List (Emission κ α)) : ℕ := past.countP fun e => e.key = k

def lastReceived (k : κ) : List (Emission κ α) → Option ℕ
  | [] => none
  | e :: past => if e.key = k ∧ e.received then some (emitted k past) else lastReceived k past

/- How many events of a key were lost since the last one received, if there
is one. -/
def lostSince (k : κ) : List (Emission κ α) → Option ℕ
  | [] => none
  | e :: past =>
    if e.key = k then
      if e.received then some 0 else (lostSince k past).map (· + 1)
    else lostSince k past

theorem emitted_cons (k : κ) (e : Emission κ α) (past : List (Emission κ α)) :
    emitted k (e :: past) = emitted k past + if e.key = k then 1 else 0 := by
  unfold emitted
  rw [List.countP_cons]
  simp only [decide_eq_true_eq]

/- The two views of a history: either no event of the key was received, or the
numbers emitted are the last one received and all those lost since. -/
theorem lastReceived_lostSince (k : κ) (past : List (Emission κ α)) :
    (lastReceived k past = none ∧ lostSince k past = none) ∨
    ∃ i n, lastReceived k past = some i ∧ lostSince k past = some n ∧
      emitted k past = i + n + 1 := by
  induction past with
  | nil => exact .inl ⟨rfl, rfl⟩
  | cons e past ih =>
    simp only [lastReceived, lostSince, emitted_cons]
    by_cases hk : e.key = k
    · cases hr : e.received with
      | true =>
        simp only [hk, and_self, ite_true]
        exact .inr ⟨emitted k past, 0, rfl, rfl, by omega⟩
      | false =>
        simp only [hk, Bool.false_eq_true, and_false, ite_true, ite_false]
        rcases ih with ⟨hl, hn⟩ | ⟨i, n, hl, hn, he⟩
        · exact .inl ⟨hl, by rw [hn]; rfl⟩
        · exact .inr ⟨i, n + 1, hl, by rw [hn]; rfl, by omega⟩
    · simp only [hk, false_and, ite_false]
      rcases ih with ⟨hl, hn⟩ | ⟨i, n, hl, hn, he⟩
      · exact .inl ⟨hl, hn⟩
      · exact .inr ⟨i, n, hl, hn, by omega⟩

/- What a receiver that keeps count reports on an event: the number lost since
the last event of the key, if that is a positive number. -/
def report : Option ℕ → Option ℕ
  | none => none
  | some 0 => none
  | some (n + 1) => some (n + 1)

/-- The received part of a continuation of a history, each event with the
report due on it. -/
def reports : List (Emission κ α) → List (Emission κ α) → List (κ × α × Option ℕ)
  | _, [] => []
  | past, e :: future =>
    if e.received then
      (e.key, e.payload, report (lostSince e.key past)) :: reports (e :: past) future
    else reports (e :: past) future

/-! ### Numbers modulo `2 ^ 32` -/

/- A sender that counts in 32 bits from an arbitrary start. -/
def number (start : UInt32) (i : ℕ) : UInt32 := start + UInt32.ofNat i

theorem number_gap (start : UInt32) (i n : ℕ) (hn : n < 2 ^ 32) :
    (number start (i + n + 1) - number start i - 1).toNat = n := by
  simp only [number, UInt32.toNat_sub, UInt32.toNat_add, UInt32.toNat_ofNat', UInt32.toNat_one]
  omega

theorem number_next_iff (start : UInt32) (i n : ℕ) (hn : n < 2 ^ 32) :
    number start i + 1 = number start (i + n + 1) ↔ n = 0 := by
  rw [← UInt32.toNat_inj]
  simp only [number, UInt32.toNat_add, UInt32.toNat_ofNat', UInt32.toNat_one]
  omega

/- What reaches the receiver: the events received, under their numbers. Each key
is counted from a start of its own. -/
def deliver (start : κ → UInt32) :
    List (Emission κ α) → List (Emission κ α) → List (κ × UInt32 × α)
  | _, [] => []
  | past, e :: future =>
    if e.received then
      (e.key, number (start e.key) (emitted e.key past), e.payload) ::
        deliver start (e :: past) future
    else deliver start (e :: past) future

/- Between two received events of a key fewer than `2 ^ 32` are lost. -/
def BoundedLoss : List (Emission κ α) → List (Emission κ α) → Prop
  | _, [] => True
  | past, e :: future =>
    (e.received = true → ∀ n ∈ lostSince e.key past, n < 2 ^ 32) ∧ BoundedLoss (e :: past) future

/-- An event as it is received, with the number of events lost that is due to be
reported on it. -/
structure Reception (κ α : Type) where
  key : κ
  number : UInt32
  payload : α
  lost : Option ℕ
  deriving Repr, DecidableEq

def receptions (start : κ → UInt32) :
    List (Emission κ α) → List (Emission κ α) → List (Reception κ α)
  | _, [] => []
  | past, e :: future =>
    if e.received then
      ⟨e.key, number (start e.key) (emitted e.key past), e.payload, report (lostSince e.key past)⟩ ::
        receptions start (e :: past) future
    else receptions start (e :: past) future

theorem reports_eq_map (start : κ → UInt32) (past future : List (Emission κ α)) :
    reports past future =
      (receptions start past future).map fun r => (r.key, r.payload, r.lost) := by
  induction future generalizing past with
  | nil => rfl
  | cons e future ih =>
    unfold reports receptions
    rw [ih]
    cases e.received <;> rfl

theorem receptions_of_deliver_nil {start : κ → UInt32} {past future : List (Emission κ α)}
    (h : deliver start past future = []) : receptions start past future = [] := by
  induction future generalizing past with
  | nil => rfl
  | cons e future ih =>
    unfold deliver at h
    unfold receptions
    cases hr : e.received with
    | true => simp [hr] at h
    | false =>
      simp only [hr, Bool.false_eq_true, ite_false] at h ⊢
      exact ih h

end CLib.Numbered
