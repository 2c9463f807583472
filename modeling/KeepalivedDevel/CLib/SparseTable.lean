import Mathlib.Tactic.Common
import Mathlib.Data.Nat.Notation
import Mathlib.Data.List.Basic
import Mathlib.Logic.Function.Basic

/-!
# Arrays with designated initialisers

An array of pointers that is given by initialisers `[i] = p`: it ends with the
largest index named, and what lies between the indices is null.
-/

namespace CLib.SparseTable

variable {α κ ν : Type}

def size : List (ℕ × α) → ℕ
  | [] => 0
  | (i, _) :: inits => max (i + 1) (size inits)

/- A later initialiser of an element replaces an earlier one. -/
def element (inits : List (ℕ × α)) (i : ℕ) : Option α := inits.reverse.lookup i

/- Reading an element, null or not; outside the array the index is the error. -/
def read (inits : List (ℕ × α)) (i : ℕ) : Except ℕ (Option α) :=
  if i < size inits then .ok (element inits i) else .error i

theorem lt_size {inits : List (ℕ × α)} {i : ℕ} {a : α} (h : (i, a) ∈ inits) : i < size inits := by
  induction inits with
  | nil => cases h
  | cons init inits ih =>
    unfold size
    rcases List.mem_cons.mp h with rfl | h
    · omega
    · have hlt := ih h
      omega

theorem read_of_lt {inits : List (ℕ × α)} {i : ℕ} (h : i < size inits) :
    read inits i = .ok (element inits i) := if_pos h

/-! ### Tables listed by name -/

section
variable {f : ν → κ} {g : ν → α} {l : List ν}

theorem lookup_map [BEq κ] [LawfulBEq κ] (hf : Function.Injective f) {x : ν} (hx : x ∈ l) :
    (l.map fun y => (f y, g y)).lookup (f x) = some (g x) := by
  induction l with
  | nil => cases hx
  | cons y l ih =>
    rw [List.map_cons, List.lookup_cons]
    cases hb : f x == f y with
    | true => rw [hf (eq_of_beq hb)]
    | false =>
      rcases List.mem_cons.mp hx with rfl | hx
      · rw [beq_self_eq_true] at hb
        cases hb
      · exact ih hx

theorem lookup_map_none [BEq κ] [LawfulBEq κ] {k : κ} (h : ∀ x ∈ l, f x ≠ k) :
    (l.map fun y => (f y, g y)).lookup k = none := by
  induction l with
  | nil => rfl
  | cons y l ih =>
    have hy : (k == f y) = false := beq_false_of_ne (Ne.symm (h y (List.mem_cons_self ..)))
    rw [List.map_cons, List.lookup_cons, hy]
    exact ih fun x hx => h x (List.mem_cons_of_mem _ hx)

end

section
variable {f : ν → ℕ} {g : ν → α} {l : List ν}

theorem element_map (hf : Function.Injective f) {x : ν} (hx : x ∈ l) :
    element (l.map fun y => (f y, g y)) (f x) = some (g x) := by
  unfold element
  rw [← List.map_reverse]
  exact lookup_map hf (List.mem_reverse.mpr hx)

theorem element_map_none {i : ℕ} (h : ∀ x ∈ l, f x ≠ i) :
    element (l.map fun y => (f y, g y)) i = none := by
  unfold element
  rw [← List.map_reverse]
  exact lookup_map_none fun x hx => h x (List.mem_reverse.mp hx)

theorem read_map (hf : Function.Injective f) {x : ν} (hx : x ∈ l) :
    read (l.map fun y => (f y, g y)) (f x) = .ok (some (g x)) := by
  have hlt : f x < size (l.map fun y => (f y, g y)) := lt_size (List.mem_map.mpr ⟨x, hx, rfl⟩)
  rw [read_of_lt hlt, element_map hf hx]

theorem read_map_some (hf : Function.Injective f) {i : ℕ} {a : α}
    (h : read (l.map fun y => (f y, g y)) i = .ok (some a)) : ∃ x ∈ l, f x = i ∧ g x = a := by
  by_cases hex : ∃ x ∈ l, f x = i
  · obtain ⟨x, hx, rfl⟩ := hex
    rw [read_map hf hx] at h
    cases h
    exact ⟨x, hx, rfl, rfl⟩
  · unfold read at h
    rw [element_map_none fun x hx he => hex ⟨x, hx, he⟩] at h
    split at h <;> cases h

end

end CLib.SparseTable
